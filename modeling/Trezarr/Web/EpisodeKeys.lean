import Trezarr.Lib.Numbers
import Trezarr.Lib.RegexPlaces
import Trezarr.Translate.ItemSeries

/-! One episode key from three parsers: the engine's, the library's and that of the queue. -/
namespace Trezarr
open Text Regex Regex.Pattern

/-- One digit at least, and so many at most. -/
def digitsUpTo (n : ℕ) : Pattern := seq digit (digit.atMost (n - 1))

/-- `[sS](\d{1,3})[ ._-]*[eE](\d{1,4})` -/
def libraryMarkedRe : Pattern :=
  seqs [oneOf "sS", group 1 (digitsUpTo 3), star (oneOf " ._-"), oneOf "eE",
    group 2 (digitsUpTo 4)]

/-- `(?<!\d)(\d{1,3})\s*[xX]\s*(\d{1,4})(?!\d)` -/
def libraryCrossedRe : Pattern :=
  seqs [notBehind isDigit, group 1 (digitsUpTo 3), star space, oneOf "xX", star space,
    group 2 (digitsUpTo 4), notAhead digit]

def isAsciiLetter (c : Char) : Bool := ('A' ≤ c && c ≤ 'Z') || ('a' ≤ c && c ≤ 'z')

/-- `(?<![A-Za-z\d])[eE](\d{1,4})(?!\d)` -/
def libraryLoneRe : Pattern :=
  seqs [notBehind fun c => isAsciiLetter c || isDigit c, oneOf "eE", group 1 (digitsUpTo 4),
    notAhead digit]

def episodeRe : Pattern :=
  seqs [oneOf "Ss", group 1 (digitsUpTo 4), oneOf "Ee", group 2 (digitsUpTo 4)]

/-- The record of an episode file. -/
structure EpFile where
  relativePath : Option Str := none
  sceneName : Option Str := none
  seasonNumber : Option ℤ := none
  deriving DecidableEq, Repr

def EpFile.name (epFile : EpFile) (rawPath : Str) : Str :=
  match epFile.relativePath.filter (· ≠ []), epFile.sceneName.filter (· ≠ []) with
  | some name, _ => name
  | none, some name => name
  | none, none => rawPath

/-- The number of a group of few digits. -/
def groupNumber (m : Found) (n : ℕ) : ℕ := (pyInt (m.group n)).toOption.getD 0

def canonicalKey (season episode : ℤ) : Str :=
  ("S" : Str) ++ twoPlaces season ++ ("E" : Str) ++ twoPlaces episode

def episodeKeyFromFile (epFile : EpFile) (rawPath : Str) : Str :=
  let name := epFile.name rawPath
  let numbered (m : Found) : Option ℤ × Option ℤ :=
    (some (epFile.seasonNumber.getD (groupNumber m 1)), some (groupNumber m 2))
  let (season, epNum) : Option ℤ × Option ℤ :=
    match search libraryMarkedRe name with
    | some m => numbered m
    | none => match search libraryCrossedRe name with
      | some m => numbered m
      | none => match search libraryLoneRe name with
        | some m => (epFile.seasonNumber, some (groupNumber m 1))
        | none => (epFile.seasonNumber, none)
  match season, epNum with
  | some season, some epNum => canonicalKey season epNum
  | _, _ => deriveEpisodeKey { localPath := none } ⟨rawPath⟩

def extractEpisodeKey (sourcePath : Str) : Str :=
  match search episodeRe sourcePath with
  | some m => canonicalKey (groupNumber m 1) (groupNumber m 2)
  | none => []

section Forms

/-- No character of a literal is of a kind, by computation. -/
theorem kind_of_mem {s : Str} {p : Char → Bool} {c : Char} (h : (s.all fun c => !p c) = true)
    (hc : c ∈ s) : p c = false := by
  simpa using List.all_eq_true.mp h c hc

/-- Two numbers with a letter before each, and a gap at most between them. -/
inductive MarkedAt (isS isGap isE : Char → Bool) (season gap episode : ℕ → Prop) :
    Str → Str → Str × Str → Prop
  | mk {before s t u r a g b : Str} {x y : Char} (hx : isS x = true)
    (ha : Longest isDigit season s a t) (hg : Longest isGap gap t g (y :: u)) (hy : isE y = true)
    (hb : Longest isDigit episode u b r) :
    MarkedAt isS isGap isE season gap episode before (x :: s) (a, b)

/-- Two numbers with an x between them, and no digit next to them. -/
inductive CrossedAt (isGap : Char → Bool) (season gap episode : ℕ → Prop) :
    Str → Str → Str × Str → Prop
  | mk {before s t u v r a g g' b : Str} {x : Char} (hbefore : before.head?.any isDigit = false)
    (ha : Longest isDigit season s a t) (hg : Longest isGap gap t g (x :: u))
    (hx : x ∈ ("xX" : Str)) (hg' : Longest isGap gap u g' v) (hb : Longest isDigit episode v b r)
    (hr : ∀ c, r.head? = some c → isDigit c = false) :
    CrossedAt isGap season gap episode before s (a, b)

/-- A number with an e before it that ends no word, and no digit after it. -/
inductive LoneAt (episode : ℕ → Prop) : Str → Str → Str → Prop
  | mk {before s r b : Str} {y : Char}
    (hbefore : (before.head?.any fun c => isAsciiLetter c || isDigit c) = false)
    (hy : y ∈ ("eE" : Str)) (hb : Longest isDigit episode s b r)
    (hr : ∀ c, r.head? = some c → isDigit c = false) : LoneAt episode before (y :: s) b

variable {isS isGap isE : Char → Bool} {wide gapWide wide' : ℕ → Prop}
  {season gap episode : Pattern} {before s : Str} {x : Str × Str}

theorem matchAt_iff {p : Pattern} {α : Type} {read : Found → α} {y : α} :
    (∃ f, matchAt p before s = some f ∧ read f = y) ↔
      ∃ d, p.first ⟨before, s, []⟩ = some d ∧
        read ⟨[], before, Cursor.upTo ⟨before, s, []⟩ d, d.after, d.groups⟩ = y := by
  simp [matchAt, first]

/-- A number and the gap after it, up to what is neither. -/
theorem first_number_gap_iff {b : Pattern} {c d : Cursor} (hseason : Runs isDigit wide season)
    (hgap : Runs isGap gapWide gap) (hgapDigit : ∀ c, isGap c = true → isDigit c = false)
    (hstop : ∀ {e}, b.first e = some d →
      ∃ y u, e.after = y :: u ∧ isDigit y = false ∧ isGap y = false) :
    (seq (group 1 season) (seq gap b)).first c = some d ↔
      ∃ a t g u, Longest isDigit wide c.after a t ∧ Longest isGap gapWide t g u ∧
        b.first ((Cursor.note c 1 a t).move g u) = some d := by
  have hmid : ∀ {e : Cursor}, (seq gap b).first e = some d ↔
      ∃ g u, Longest isGap gapWide e.after g u ∧ b.first (e.move g u) = some d := by
    intro e
    apply hgap.first_seq_iff
    intro e he z hz
    obtain ⟨y, u, hafter, _, hy⟩ := hstop he
    rw [hafter] at hz
    cases hz
    exact hy
  have hwhole : (seq (group 1 season) (seq gap b)).first c = some d ↔
      ∃ a t, Longest isDigit wide c.after a t ∧
        (seq gap b).first (Cursor.note c 1 a t) = some d := by
    apply hseason.first_group_seq_iff
    intro e he z hz
    obtain ⟨g, t, hg, hrest⟩ := hmid.mp he
    obtain ⟨y, u, hafter, hy, _⟩ := hstop hrest
    rw [hg.eq, show t = y :: u from hafter] at hz
    cases g with
    | nil =>
      cases hz
      exact hy
    | cons z' g =>
      cases hz
      exact hgapDigit z (hg.all z List.mem_cons_self)
  rw [hwhole]
  constructor
  · rintro ⟨a, t, ha, hd⟩
    obtain ⟨g, u, hg, hd⟩ := hmid.mp hd
    exact ⟨a, t, g, u, ha, hg, hd⟩
  · rintro ⟨a, t, g, u, ha, hg, hd⟩
    exact ⟨a, t, ha, hmid.mpr ⟨g, u, hg, hd⟩⟩

/-- The parts of a marked code, in the order of the pattern. -/
theorem matchAt_marked_iff (hseason : Runs isDigit wide season) (hgap : Runs isGap gapWide gap)
    (hepisode : Runs isDigit wide' episode) (hgapDigit : ∀ c, isGap c = true → isDigit c = false)
    (hE : ∀ c, isE c = true → isDigit c = false ∧ isGap c = false) :
    (∃ f, matchAt (seqs [set isS, group 1 season, gap, set isE, group 2 episode]) before s =
        some f ∧ (f.group 1, f.group 2) = x) ↔
      MarkedAt isS isGap isE wide gapWide wide' before s x := by
  have hlast : ∀ {c d : Cursor}, (seq (set isE) (seq (group 2 episode) eps)).first c = some d ↔
      ∃ y u, c.after = y :: u ∧ isE y = true ∧ ∃ b r, Longest isDigit wide' u b r ∧
        d = Cursor.note (c.move [y] u) 2 b r := by
    intro c d
    simp only [first_seq_set, first_seq_eps, hepisode.first_group_iff, Cursor.move_after]
  have hstop : ∀ {d e : Cursor}, (seq (set isE) (seq (group 2 episode) eps)).first e = some d →
      ∃ y u, e.after = y :: u ∧ isDigit y = false ∧ isGap y = false := by
    intro d e he
    obtain ⟨y, u, hafter, hy, _⟩ := hlast.mp he
    exact ⟨y, u, hafter, hE y hy⟩
  rw [matchAt_iff]
  simp only [seqs, List.foldr, first_seq_set]
  constructor
  · rintro ⟨d, ⟨y, t, rfl, hy, hd⟩, rfl⟩
    obtain ⟨a, u, g, v, ha, hg, hd⟩ := (first_number_gap_iff hseason hgap hgapDigit hstop).mp hd
    obtain ⟨z, w, hafter, hz, b, r, hb, rfl⟩ := hlast.mp hd
    cases hafter
    exact .mk hy ha hg hz hb
  · intro h
    cases h with
    | mk hy ha hg hz hb =>
      refine ⟨_, ⟨_, _, rfl, hy, (first_number_gap_iff hseason hgap hgapDigit hstop).mpr
        ⟨_, _, _, _, ha, hg, hlast.mpr ⟨_, _, rfl, hz, _, _, hb, rfl⟩⟩⟩, rfl⟩

theorem first_stop {c d : Cursor} : (seq (notAhead digit) eps).first c = some d ↔
    (∀ z, c.after.head? = some z → isDigit z = false) ∧ d = c := by
  refine first_notAhead_seq.trans (and_congr_right fun _ => ?_)
  rw [first_eps, Option.some.injEq]
  exact eq_comm

/-- The same of a crossed code, where an end of each run is seen. -/
theorem matchAt_crossed_iff (hseason : Runs isDigit wide season) (hgap : Runs isGap gapWide gap)
    (hepisode : Runs isDigit wide' episode) (hpos : ∀ n, wide' n → 0 < n)
    (hgapDigit : ∀ c, isGap c = true → isDigit c = false)
    (hgapX : ∀ c ∈ ("xX" : Str), isGap c = false) :
    (∃ f, matchAt (seqs [notBehind isDigit, group 1 season, gap, oneOf "xX", gap, group 2 episode,
      notAhead digit]) before s = some f ∧ (f.group 1, f.group 2) = x) ↔
        CrossedAt isGap wide gapWide wide' before s x := by
  have hdigitX : ∀ c ∈ ("xX" : Str), isDigit c = false :=
    fun c => kind_of_mem (by decide)
  have hlast : ∀ {c d : Cursor},
      (seq (group 2 episode) (seq (notAhead digit) eps)).first c = some d ↔
        ∃ b r, Longest isDigit wide' c.after b r ∧
          (seq (notAhead digit) eps).first (Cursor.note c 2 b r) = some d := by
    intro c d
    apply hepisode.first_group_seq_iff
    exact fun e he => (first_stop.mp he).1
  have hbehind : ∀ {c d : Cursor},
      (seq gap (seq (group 2 episode) (seq (notAhead digit) eps))).first c = some d ↔
        ∃ g t, Longest isGap gapWide c.after g t ∧
          (seq (group 2 episode) (seq (notAhead digit) eps)).first (c.move g t) = some d := by
    intro c d
    apply hgap.first_seq_iff
    intro e he z hz
    obtain ⟨b, r, hb, _⟩ := hlast.mp he
    obtain ⟨y, b, rfl⟩ := List.exists_cons_of_ne_nil (List.length_pos_iff.mp (hpos _ hb.fits))
    rw [hb.eq] at hz
    cases hz
    cases hspace : isGap z with
    | false => rfl
    | true =>
      have hdigit := hb.all z List.mem_cons_self
      rw [hgapDigit z hspace] at hdigit
      cases hdigit
  have hstop : ∀ {d e : Cursor}, (seq (oneOf "xX") (seq gap (seq (group 2 episode)
      (seq (notAhead digit) eps)))).first e = some d →
        ∃ y u, e.after = y :: u ∧ isDigit y = false ∧ isGap y = false := by
    intro d e he
    obtain ⟨y, u, hafter, hy, _⟩ := first_seq_set.mp he
    exact ⟨y, u, hafter, hdigitX y (of_decide_eq_true hy), hgapX y (of_decide_eq_true hy)⟩
  rw [matchAt_iff]
  simp only [seqs, List.foldr, first_notBehind_seq]
  constructor
  · rintro ⟨d, ⟨hbefore, hd⟩, rfl⟩
    obtain ⟨a, u, g, v, ha, hg, hd⟩ := (first_number_gap_iff hseason hgap hgapDigit hstop).mp hd
    obtain ⟨y, w, hafter, hy, hd⟩ := first_seq_set.mp hd
    obtain ⟨g', w', hg', hd⟩ := hbehind.mp hd
    obtain ⟨b, r, hb, hd⟩ := hlast.mp hd
    obtain ⟨hr, rfl⟩ := first_stop.mp hd
    cases hafter
    exact .mk hbefore ha hg (of_decide_eq_true hy) hg' hb hr
  · intro h
    cases h with
    | mk hbefore ha hg hy hg' hb hr =>
      refine ⟨_, ⟨hbefore, (first_number_gap_iff hseason hgap hgapDigit hstop).mpr
        ⟨_, _, _, _, ha, hg, first_seq_set.mpr ⟨_, _, rfl, decide_eq_true hy, hbehind.mpr
          ⟨_, _, hg', hlast.mpr ⟨_, _, hb, first_stop.mpr ⟨hr, rfl⟩⟩⟩⟩⟩⟩, rfl⟩

theorem matchAt_lone_iff {y : Str} (hepisode : Runs isDigit wide' episode) :
    (∃ f, matchAt (seqs [notBehind fun c => isAsciiLetter c || isDigit c, oneOf "eE",
      group 1 episode, notAhead digit]) before s = some f ∧ f.group 1 = y) ↔
        LoneAt wide' before s y := by
  have hlast : ∀ {c d : Cursor},
      (seq (group 1 episode) (seq (notAhead digit) eps)).first c = some d ↔
        ∃ b r, Longest isDigit wide' c.after b r ∧
          (seq (notAhead digit) eps).first (Cursor.note c 1 b r) = some d := by
    intro c d
    apply hepisode.first_group_seq_iff
    exact fun e he => (first_stop.mp he).1
  rw [matchAt_iff]
  simp only [seqs, List.foldr, first_notBehind_seq, oneOf, first_seq_set]
  constructor
  · rintro ⟨d, ⟨hbefore, z, u, rfl, hz, hd⟩, rfl⟩
    obtain ⟨b, r, hb, hd⟩ := hlast.mp hd
    obtain ⟨hr, rfl⟩ := first_stop.mp hd
    exact .mk hbefore (of_decide_eq_true hz) hb hr
  · intro h
    cases h with
    | mk hbefore hz hb hr =>
      exact ⟨_, ⟨hbefore, _, _, rfl, decide_eq_true hz, hlast.mpr
        ⟨_, _, hb, first_stop.mpr ⟨hr, rfl⟩⟩⟩, rfl⟩

end Forms

/-- One at least, and so many at most. -/
def UpTo (n k : ℕ) : Prop := 0 < k ∧ k ≤ n

/-- Where the engine finds `SxxExx`, with its digits. -/
def engineMarked : Str → Str × Str → Prop :=
  FirstAt (MarkedAt (sameLetter 's') (fun _ => false) (sameLetter 'e') (2 ≤ ·) (· = 0) (2 ≤ ·)) []

def engineCrossed : Str → Str × Str → Prop :=
  FirstAt (CrossedAt (fun _ => false) (UpTo 2) (· = 0) (UpTo 3)) []

/-- The library takes fewer digits, and separators between the numbers. -/
def libraryMarked : Str → Str × Str → Prop :=
  FirstAt (MarkedAt (· ∈ ("sS" : Str)) (· ∈ (" ._-" : Str)) (· ∈ ("eE" : Str)) (UpTo 3)
    (fun _ => True) (UpTo 4)) []

def libraryCrossed : Str → Str × Str → Prop :=
  FirstAt (CrossedAt isSpace (UpTo 3) (fun _ => True) (UpTo 4)) []

def libraryLone : Str → Str → Prop := FirstAt (LoneAt (UpTo 4)) []

/-- The queue looks for one form only. -/
def queueMarked : Str → Str × Str → Prop :=
  FirstAt (MarkedAt (· ∈ ("Ss" : Str)) (fun _ => false) (· ∈ ("Ee" : Str)) (UpTo 4) (· = 0)
    (UpTo 4)) []

section Readings

variable {text : Str} {x : Str × Str} {y : Str} {n : ℕ}

theorem runs_digitsUpTo (hn : 0 < n) : Runs isDigit (UpTo n) (digitsUpTo n) := by
  refine ((Runs.atMost isDigit (n - 1)).cons).congr fun k => ?_
  unfold UpTo
  constructor
  · rintro ⟨m, rfl, hm⟩
    omega
  · rintro ⟨hpos, hk⟩
    exact ⟨k - 1, by omega, by omega⟩

theorem search_libraryMarkedRe : (∃ f, search libraryMarkedRe text = some f ∧
    (f.group 1, f.group 2) = x) ↔ libraryMarked text x := by
  refine searchFrom_iff (fun _ _ => rfl) fun before after x => ?_
  apply matchAt_marked_iff (runs_digitsUpTo (by omega)) Runs.star (runs_digitsUpTo (by omega))
  · intro c hc
    exact kind_of_mem (by decide) (of_decide_eq_true hc)
  · intro c hc
    have hmem := of_decide_eq_true hc
    exact ⟨kind_of_mem (by decide) hmem,
      kind_of_mem (p := fun c => decide (c ∈ (" ._-" : Str))) (by decide) hmem⟩

theorem search_libraryCrossedRe : (∃ f, search libraryCrossedRe text = some f ∧
    (f.group 1, f.group 2) = x) ↔ libraryCrossed text x := by
  refine searchFrom_iff (fun _ _ => rfl) fun before after x => ?_
  apply matchAt_crossed_iff (runs_digitsUpTo (by omega)) Runs.star (runs_digitsUpTo (by omega))
  · exact fun n hn => hn.1
  · intro c hc
    cases hdigit : isDigit c with
    | false => rfl
    | true =>
      rw [not_isSpace_of_isDigit hdigit] at hc
      cases hc
  · exact fun c => kind_of_mem (by decide)

theorem search_libraryLoneRe : (∃ f, search libraryLoneRe text = some f ∧ f.group 1 = y) ↔
    libraryLone text y :=
  searchFrom_iff (fun _ _ => rfl) fun _ _ _ => matchAt_lone_iff (runs_digitsUpTo (by omega))

/-- An empty part changes nothing. -/
theorem matchAt_congr {p q : Pattern} (h : ∀ c, p.results c = q.results c) :
    matchAt p = matchAt q := by
  funext before after
  unfold matchAt
  rw [h]

theorem search_episodeRe : (∃ f, search episodeRe text = some f ∧
    (f.group 1, f.group 2) = x) ↔ queueMarked text x := by
  refine searchFrom_iff (fun _ _ => rfl) fun before after x => ?_
  have hparts := @matchAt_marked_iff (· ∈ ("Ss" : Str)) (fun _ => false) (· ∈ ("Ee" : Str)) _ _ _
    _ _ _ before after x (runs_digitsUpTo (n := 4) (by omega)) Runs.eps
    (runs_digitsUpTo (n := 4) (by omega)) nofun fun c hc =>
      ⟨kind_of_mem (by decide) (of_decide_eq_true hc), rfl⟩
  rw [← hparts, matchAt_congr]
  intro c
  simp [episodeRe, oneOf, seqs, results]

/-- A digit is no form of a letter. -/
theorem isDigit_of_sameLetter {c x : Char} (h : sameLetter c x = true)
    (hc : isDigit (simpleLower c) = false) : isDigit x = false := by
  cases hx : isDigit x with
  | false => rfl
  | true =>
    unfold sameLetter at h
    simp only [simpleLower_of_isDigit hx, Bool.or_eq_true, Bool.and_eq_true,
      decide_eq_true_eq] at h
    rcases h with (rfl | ⟨_, rfl⟩) | ⟨_, rfl⟩
    · rw [hx] at hc
      cases hc
    · revert hx
      decide
    · revert hx
      decide

theorem search_seasonEpisode : (∃ f, search seasonEpisode text = some f ∧
    (f.group 1, f.group 2) = x) ↔ engineMarked text x := by
  refine searchFrom_iff (fun _ _ => rfl) fun before after x => ?_
  have hnumber : Runs isDigit (2 ≤ ·) (seq digit (plus digit)) := by
    refine (Runs.star.cons.cons).congr fun k => ?_
    constructor
    · rintro ⟨_, rfl, m, rfl, _⟩
      omega
    · exact fun hk => ⟨k - 1, by omega, k - 2, by omega, trivial⟩
  have hparts := @matchAt_marked_iff (sameLetter 's') (fun _ => false) (sameLetter 'e') _ _ _ _ _ _
    before after x hnumber Runs.eps hnumber nofun fun c hc =>
      ⟨isDigit_of_sameLetter hc (by decide), rfl⟩
  rw [← hparts, matchAt_congr]
  intro c
  simp [seasonEpisode, charI, seqs, results]

theorem search_plexEpisode : (∃ f, search plexEpisode text = some f ∧
    (f.group 1, f.group 2) = x) ↔ engineCrossed text x := by
  refine searchFrom_iff (fun _ _ => rfl) fun before after x => ?_
  have htwo : Runs isDigit (UpTo 2) (seq digit (opt digit)) := by
    refine (Runs.set.opt.cons).congr fun k => ?_
    unfold UpTo
    constructor
    · rintro ⟨m, rfl, rfl | rfl⟩
      · omega
      · omega
    · rintro ⟨hpos, hk⟩
      exact ⟨k - 1, by omega, by omega⟩
  have hthree : Runs isDigit (UpTo 3) (seq digit (opt (seq digit (opt digit)))) := by
    refine (htwo.opt.cons).congr fun k => ?_
    unfold UpTo
    constructor
    · rintro ⟨m, rfl, ⟨hpos, hm⟩ | rfl⟩
      · omega
      · omega
    · rintro ⟨hpos, hk⟩
      exact ⟨k - 1, by omega, by omega⟩
  have hparts := @matchAt_crossed_iff (fun _ => false) _ _ _ _ _ _ before after x htwo Runs.eps
    hthree (fun n hn => hn.1) nofun fun _ _ => rfl
  rw [← hparts, matchAt_congr]
  intro c
  simp [plexEpisode, seqs, results]

end Readings

section Keys

theorem twoPlaces_natCast (n : ℕ) :
    twoPlaces n = List.replicate (2 - (natStr n).length) '0' ++ natStr n := by
  unfold twoPlaces
  rw [if_neg (by omega)]
  rfl

theorem isDigit_twoPlaces {n : ℕ} {c : Char} (h : c ∈ twoPlaces n) : isDigit c = true := by
  rw [twoPlaces_natCast] at h
  rcases List.mem_append.mp h with h | h
  · rw [List.eq_of_mem_replicate h]
    decide
  · exact isDigit_natStr h

theorem valueOf_twoPlaces (n : ℕ) : valueOf (twoPlaces n) = n := by
  rw [twoPlaces_natCast, valueOf_zeros, valueOf_natStr]

theorem twoPlaces_negSucc (n : ℕ) : twoPlaces (Int.negSucc n) = '-' :: natStr (n + 1) := by
  unfold twoPlaces
  rw [if_pos (Int.negSucc_lt_zero n)]
  rfl

theorem twoPlaces_injective : Function.Injective twoPlaces := by
  have hapart : ∀ m n : ℕ, twoPlaces m ≠ twoPlaces (Int.negSucc n) := by
    intro m n h
    rw [twoPlaces_negSucc] at h
    have hminus : isDigit '-' = true := isDigit_twoPlaces (h ▸ List.mem_cons_self)
    revert hminus
    decide
  intro m n h
  cases m with
  | ofNat m =>
    cases n with
    | ofNat n =>
      have hvalue := congrArg valueOf h
      rw [Int.ofNat_eq_natCast, Int.ofNat_eq_natCast, valueOf_twoPlaces,
        valueOf_twoPlaces] at hvalue
      rw [hvalue]
    | negSucc n => exact absurd h (hapart m n)
  | negSucc m =>
    cases n with
    | ofNat n => exact absurd h.symm (hapart n m)
    | negSucc n =>
      rw [twoPlaces_negSucc, twoPlaces_negSucc] at h
      have hsucc := natStr_injective (List.cons.inj h).2
      rw [Nat.succ_injective hsucc]

theorem not_mem_twoPlaces (n : ℤ) : 'E' ∉ twoPlaces n := by
  have hdigit : isDigit 'E' = false := by decide
  intro h
  cases n with
  | ofNat n =>
    rw [Int.ofNat_eq_natCast] at h
    rw [isDigit_twoPlaces h] at hdigit
    cases hdigit
  | negSucc n =>
    rw [twoPlaces_negSucc] at h
    rcases List.mem_cons.mp h with h | h
    · revert h
      decide
    · rw [isDigit_natStr h] at hdigit
      cases hdigit

/-- The parts of a key are seen at its last E. -/
theorem key_parts {a b a' b' : Str} (hb : 'E' ∉ b) (hb' : 'E' ∉ b') :
    ("S" : Str) ++ a ++ ("E" : Str) ++ b = ("S" : Str) ++ a' ++ ("E" : Str) ++ b' ↔
      a = a' ∧ b = b' := by
  constructor
  · intro h
    rw [List.append_assoc (("S" : Str) ++ a), List.append_assoc (("S" : Str) ++ a')] at h
    obtain ⟨hfront, hback⟩ := @last_split_inj 'E' _ _ _ _ hb hb' h
    exact ⟨List.append_cancel_left hfront, hback⟩
  · rintro ⟨rfl, rfl⟩
    rfl

theorem canonicalKey_inj {s e s' e' : ℤ} :
    canonicalKey s e = canonicalKey s' e' ↔ s = s' ∧ e = e' := by
  unfold canonicalKey
  rw [key_parts (not_mem_twoPlaces e) (not_mem_twoPlaces e')]
  exact and_congr twoPlaces_injective.eq_iff twoPlaces_injective.eq_iff

end Keys

section Parsers

variable {item : MediaItem} {path : Path} {epFile : EpFile} {rawPath : Str} {s e : ℕ}

/-- What is read where something stands for the first time. -/
theorem search_cases {α : Type} {p : Pattern} {text : Str} {read : Found → α} {R : α → Prop}
    (h : ∀ x, (∃ f, search p text = some f ∧ read f = x) ↔ R x) :
    (search p text = none ∧ ∀ x, ¬ R x) ∨
      ∃ f, search p text = some f ∧ ∀ x, R x ↔ x = read f := by
  cases hsearch : search p text with
  | none =>
    refine .inl ⟨rfl, fun x hx => ?_⟩
    obtain ⟨f, hf, _⟩ := (h x).mpr hx
    cases hsearch.symm.trans hf
  | some f =>
    refine .inr ⟨f, rfl, fun x => ?_⟩
    rw [← h x, hsearch]
    constructor
    · rintro ⟨g, hg, rfl⟩
      cases hg
      rfl
    · rintro rfl
      exact ⟨f, rfl, rfl⟩

theorem exists_here_of_firstAt {α : Type} {Here : Str → Str → α → Prop} {before text : Str} {x : α}
    (h : FirstAt Here before text x) : ∃ before after, Here before after x := by
  induction h with
  | here h => exact ⟨_, _, h⟩
  | later _ _ ih => exact ih

theorem groupNumber_eq {m : Found} {n : ℕ} (h : (m.group n).length ≤ 4) :
    groupNumber m n = valueOf (m.group n) := by
  have hshort : ¬ maxStrDigits < (m.group n).length := by
    unfold maxStrDigits
    omega
  unfold groupNumber pyInt
  rw [if_neg hshort]
  rfl

/-- The engine's key has these numbers: marked ones with just the places of a key, or else crossed
ones, or else the season it is told and no episode. -/
inductive EngineReads (seasonNumber : Option ℤ) (stem : Str) (s e : ℕ) : Prop
  | marked (h : engineMarked stem (twoPlaces s, twoPlaces e))
  | crossed {a b : Str} (hnone : ∀ x, ¬ engineMarked stem x) (h : engineCrossed stem (a, b))
    (hs : valueOf a = s) (he : valueOf b = e)
  | neither (hnone : ∀ x, ¬ engineMarked stem x) (hnone' : ∀ x, ¬ engineCrossed stem x)
    (hs : seasonNumber.getD 0 = s) (he : e = 0)

/-- The season of the record goes before that of the name. -/
inductive LibraryReads (epFile : EpFile) (rawPath : Str) (s e : ℕ) : Prop
  | marked {a b : Str} (h : libraryMarked (epFile.name rawPath) (a, b))
    (hs : epFile.seasonNumber.getD (valueOf a) = s) (he : valueOf b = e)
  | crossed {a b : Str} (hnone : ∀ x, ¬ libraryMarked (epFile.name rawPath) x)
    (h : libraryCrossed (epFile.name rawPath) (a, b))
    (hs : epFile.seasonNumber.getD (valueOf a) = s) (he : valueOf b = e)
  | lone {b : Str} (hnone : ∀ x, ¬ libraryMarked (epFile.name rawPath) x)
    (hnone' : ∀ x, ¬ libraryCrossed (epFile.name rawPath) x)
    (h : libraryLone (epFile.name rawPath) b) (hs : epFile.seasonNumber = some (s : ℤ))
    (he : valueOf b = e)
  | derived (hnone : ∀ x, ¬ libraryMarked (epFile.name rawPath) x)
    (hnone' : ∀ x, ¬ libraryCrossed (epFile.name rawPath) x)
    (hlone : epFile.seasonNumber = none ∨ ∀ b, ¬ libraryLone (epFile.name rawPath) b)
    (h : EngineReads none (Path.mk rawPath).stem s e)

def QueueReads (path : Path) (s e : ℕ) : Prop :=
  ∃ a b, queueMarked path.str (a, b) ∧ valueOf a = s ∧ valueOf b = e

theorem deriveEpisodeKey_eq_iff (hepisode : item.sourceType = "episode") :
    deriveEpisodeKey item path = canonicalKey s e ↔
      EngineReads item.seasonNumber path.stem s e := by
  have hmarked := search_cases fun x => @search_seasonEpisode path.stem x
  have hcrossed := search_cases fun x => @search_plexEpisode path.stem x
  unfold deriveEpisodeKey
  rw [if_pos hepisode]
  rcases hmarked with ⟨hnone, hno⟩ | ⟨f, hf, hread⟩
  · rw [hnone]
    rcases hcrossed with ⟨hnone', hno'⟩ | ⟨f, hf, hread⟩
    · have hkey : ("S" : Str) ++ twoPlaces (item.seasonNumber.getD 0) ++ ("E00" : Str) =
          canonicalKey (item.seasonNumber.getD 0) (0 : ℕ) := by
        unfold canonicalKey
        rw [List.append_assoc _ ("E" : Str)]
        rfl
      rw [hnone']
      dsimp only
      rw [hkey, canonicalKey_inj]
      constructor
      · rintro ⟨hs, he⟩
        exact .neither hno hno' hs (Int.ofNat.inj he).symm
      · intro h
        cases h with
        | marked h => exact absurd h (hno _)
        | crossed _ h => exact absurd h (hno' _)
        | neither _ _ hs he =>
          rw [he]
          exact ⟨hs, rfl⟩
    · have hhere := (hread _).mpr rfl
      obtain ⟨before, after, hplace⟩ := exists_here_of_firstAt hhere
      obtain ⟨ha, hb⟩ : (f.group 1).length ≤ 4 ∧ (f.group 2).length ≤ 4 := by
        cases hplace with
        | mk _ ha _ _ _ hb _ => exact ⟨ha.fits.2.trans (by omega), hb.fits.2.trans (by omega)⟩
      rw [hf]
      show canonicalKey (groupNumber f 1) (groupNumber f 2) = _ ↔ _
      rw [canonicalKey_inj, groupNumber_eq ha, groupNumber_eq hb, Int.natCast_inj, Int.natCast_inj]
      constructor
      · rintro ⟨hs, he⟩
        exact .crossed hno hhere hs he
      · intro h
        cases h with
        | marked h => exact absurd h (hno _)
        | crossed _ h hs he =>
          cases (hread _).mp h
          exact ⟨hs, he⟩
        | neither _ hnone => exact absurd hhere (hnone _)
  · have hhere := (hread _).mpr rfl
    obtain ⟨before, after, hplace⟩ := exists_here_of_firstAt hhere
    have hlast : 'E' ∉ f.group 2 := by
      intro hmem
      cases hplace with
      | mk _ _ _ _ hb =>
        have hdigit := hb.all 'E' hmem
        revert hdigit
        decide
    rw [hf]
    unfold canonicalKey
    dsimp only
    rw [key_parts hlast (not_mem_twoPlaces e)]
    constructor
    · rintro ⟨hs, he⟩
      rw [hs, he] at hhere
      exact .marked hhere
    · intro h
      cases h with
      | marked h =>
        have hsame := (hread _).mp h
        exact ⟨(congrArg Prod.fst hsame).symm, (congrArg Prod.snd hsame).symm⟩
      | crossed hnone => exact absurd hhere (hnone _)
      | neither hnone => exact absurd hhere (hnone _)

theorem extractEpisodeKey_eq_iff :
    extractEpisodeKey path.str = canonicalKey s e ↔ QueueReads path s e := by
  unfold extractEpisodeKey
  rcases search_cases fun x => @search_episodeRe path.str x with ⟨hnone, hno⟩ | ⟨f, hf, hread⟩
  · rw [hnone]
    constructor
    · intro h
      cases h
    · rintro ⟨a, b, h, _⟩
      exact absurd h (hno _)
  · have hhere := (hread _).mpr rfl
    obtain ⟨before, after, hplace⟩ := exists_here_of_firstAt hhere
    obtain ⟨ha, hb⟩ : (f.group 1).length ≤ 4 ∧ (f.group 2).length ≤ 4 := by
      cases hplace with
      | mk _ ha _ _ hb => exact ⟨ha.fits.2, hb.fits.2⟩
    rw [hf]
    dsimp only
    rw [canonicalKey_inj, groupNumber_eq ha, groupNumber_eq hb, Int.natCast_inj, Int.natCast_inj]
    constructor
    · rintro ⟨hs, he⟩
      exact ⟨_, _, hhere, hs, he⟩
    · rintro ⟨a, b, h, hs, he⟩
      cases (hread _).mp h
      exact ⟨hs, he⟩

theorem episodeKeyFromFile_eq_iff :
    episodeKeyFromFile epFile rawPath = canonicalKey s e ↔ LibraryReads epFile rawPath s e := by
  have hderived : deriveEpisodeKey { localPath := none } ⟨rawPath⟩ = canonicalKey s e ↔
      EngineReads none (Path.mk rawPath).stem s e := deriveEpisodeKey_eq_iff rfl
  unfold episodeKeyFromFile
  rcases search_cases fun x => @search_libraryMarkedRe (epFile.name rawPath) x with
    ⟨hnone, hno⟩ | ⟨f, hf, hread⟩
  · rcases search_cases fun x => @search_libraryCrossedRe (epFile.name rawPath) x with
      ⟨hnone', hno'⟩ | ⟨f, hf, hread⟩
    · rcases search_cases fun x => @search_libraryLoneRe (epFile.name rawPath) x with
        ⟨hlone, hnolone⟩ | ⟨f, hf, hread⟩
      · have hkey : deriveEpisodeKey { localPath := none } ⟨rawPath⟩ = canonicalKey s e ↔
            LibraryReads epFile rawPath s e := by
          rw [hderived]
          constructor
          · exact .derived hno hno' (.inr hnolone)
          · intro h
            cases h with
            | marked h => exact absurd h (hno _)
            | crossed _ h => exact absurd h (hno' _)
            | lone _ _ h => exact absurd h (hnolone _)
            | derived _ _ _ h => exact h
        simp only [hnone, hnone', hlone]
        cases epFile.seasonNumber with
        | none => exact hkey
        | some season => exact hkey
      · have hhere := (hread _).mpr rfl
        obtain ⟨before, after, hplace⟩ := exists_here_of_firstAt hhere
        have hb : (f.group 1).length ≤ 4 := by
          cases hplace with
          | mk _ _ hb => exact hb.fits.2
        simp only [hnone, hnone', hf]
        cases hseason : epFile.seasonNumber with
        | none =>
          dsimp only
          rw [hderived]
          constructor
          · exact .derived hno hno' (.inl hseason)
          · intro h
            cases h with
            | marked h => exact absurd h (hno _)
            | crossed _ h => exact absurd h (hno' _)
            | lone _ _ _ hs =>
              rw [hseason] at hs
              cases hs
            | derived _ _ _ h => exact h
        | some season =>
          dsimp only
          rw [canonicalKey_inj, groupNumber_eq hb, Int.natCast_inj]
          constructor
          · rintro ⟨hs, he⟩
            exact .lone hno hno' hhere (hs ▸ hseason) he
          · intro h
            cases h with
            | marked h => exact absurd h (hno _)
            | crossed _ h => exact absurd h (hno' _)
            | lone _ _ h hs he =>
              rw [hseason] at hs
              cases (hread _).mp h
              exact ⟨Option.some.inj hs, he⟩
            | derived _ _ hlone =>
              rcases hlone with hlone | hlone
              · rw [hseason] at hlone
                cases hlone
              · exact absurd hhere (hlone _)
    · have hhere := (hread _).mpr rfl
      obtain ⟨before, after, hplace⟩ := exists_here_of_firstAt hhere
      obtain ⟨ha, hb⟩ : (f.group 1).length ≤ 4 ∧ (f.group 2).length ≤ 4 := by
        cases hplace with
        | mk _ ha _ _ _ hb _ => exact ⟨ha.fits.2.trans (by omega), hb.fits.2⟩
      simp only [hnone, hf]
      rw [canonicalKey_inj, groupNumber_eq ha, groupNumber_eq hb, Int.natCast_inj]
      constructor
      · rintro ⟨hs, he⟩
        exact .crossed hno hhere hs he
      · intro h
        cases h with
        | marked h => exact absurd h (hno _)
        | crossed _ h hs he =>
          cases (hread _).mp h
          exact ⟨hs, he⟩
        | lone _ hnone => exact absurd hhere (hnone _)
        | derived _ hnone => exact absurd hhere (hnone _)
  · have hhere := (hread _).mpr rfl
    obtain ⟨before, after, hplace⟩ := exists_here_of_firstAt hhere
    obtain ⟨ha, hb⟩ : (f.group 1).length ≤ 4 ∧ (f.group 2).length ≤ 4 := by
      cases hplace with
      | mk _ ha _ _ hb => exact ⟨ha.fits.2.trans (by omega), hb.fits.2⟩
    simp only [hf]
    rw [canonicalKey_inj, groupNumber_eq ha, groupNumber_eq hb, Int.natCast_inj]
    constructor
    · rintro ⟨hs, he⟩
      exact .marked hhere hs he
    · intro h
      cases h with
      | marked h hs he =>
        cases (hread _).mp h
        exact ⟨hs, he⟩
      | crossed hnone => exact absurd hhere (hnone _)
      | lone hnone => exact absurd hhere (hnone _)
      | derived hnone => exact absurd hhere (hnone _)

end Parsers

/-- The numbers one of the parsers finds in a file name, in the form it looks for first or in the
other. -/
inductive Carries (path : Path) (name : Str) : ℕ → ℕ → Prop
  | engineMarked {a b : Str} (h : engineMarked path.stem (a, b)) :
    Carries path name (valueOf a) (valueOf b)
  | engineCrossed {a b : Str} (hnone : ∀ x, ¬ Trezarr.engineMarked path.stem x)
    (h : engineCrossed path.stem (a, b)) : Carries path name (valueOf a) (valueOf b)
  | libraryMarked {a b : Str} (h : libraryMarked name (a, b)) :
    Carries path name (valueOf a) (valueOf b)
  | libraryCrossed {a b : Str} (hnone : ∀ x, ¬ Trezarr.libraryMarked name x)
    (h : libraryCrossed name (a, b)) : Carries path name (valueOf a) (valueOf b)
  | queueMarked {a b : Str} (h : queueMarked path.str (a, b)) :
    Carries path name (valueOf a) (valueOf b)

/-- The three keys of a file are that of the episode its name carries. -/
def KeysAgree (item : MediaItem) (path : Path) (epFile : EpFile) : Prop :=
  ∀ s e : ℕ, Carries path (epFile.name path.str) s e →
    deriveEpisodeKey item path = canonicalKey s e ∧
      episodeKeyFromFile epFile path.str = canonicalKey s e ∧
      extractEpisodeKey path.str = canonicalKey s e

/-- The keys of a file agree just when each parser finds the episode in the form it accepts, the
engine with its digits as a key has them; and a key stands for one episode. -/
theorem episode_keys_agree_iff (item : MediaItem) (path : Path) (epFile : EpFile)
    (hepisode : item.sourceType = "episode") :
    (KeysAgree item path epFile ↔ ∀ s e : ℕ, Carries path (epFile.name path.str) s e →
      EngineReads item.seasonNumber path.stem s e ∧ LibraryReads epFile path.str s e ∧
        QueueReads path s e) ∧
    ∀ s e s' e' : ℕ, canonicalKey s e = canonicalKey s' e' → s = s' ∧ e = e' := by
  constructor
  · unfold KeysAgree
    simp only [deriveEpisodeKey_eq_iff hepisode, episodeKeyFromFile_eq_iff,
      extractEpisodeKey_eq_iff]
  · intro s e s' e' h
    obtain ⟨hs, he⟩ := canonicalKey_inj.mp h
    exact ⟨Int.natCast_inj.mp hs, Int.natCast_inj.mp he⟩

theorem padded_code_carried {s e : ℕ}
    (h : Carries ⟨"/tv/Show S01E05.srt"⟩ "/tv/Show S01E05.srt" s e) : s = 1 ∧ e = 5 := by
  cases h with
  | engineMarked h =>
    obtain ⟨f, hf, hx⟩ := search_seasonEpisode.mpr h
    cases hf
    cases hx
    decide
  | engineCrossed hnone =>
    have hmarked : engineMarked (Path.mk "/tv/Show S01E05.srt").stem ("01", "05") :=
      search_seasonEpisode.mp ⟨_, rfl, by decide⟩
    exact absurd hmarked (hnone _)
  | libraryMarked h =>
    obtain ⟨f, hf, hx⟩ := search_libraryMarkedRe.mpr h
    cases hf
    cases hx
    decide
  | libraryCrossed hnone =>
    have hmarked : libraryMarked "/tv/Show S01E05.srt" ("01", "05") :=
      search_libraryMarkedRe.mp ⟨_, rfl, by decide⟩
    exact absurd hmarked (hnone _)
  | queueMarked h =>
    obtain ⟨f, hf, hx⟩ := search_episodeRe.mpr h
    cases hf
    cases hx
    decide

theorem padded_code_agrees : KeysAgree { localPath := none } ⟨"/tv/Show S01E05.srt"⟩ {} := by
  apply (episode_keys_agree_iff _ _ _ rfl).1.mpr
  intro s e h
  obtain ⟨rfl, rfl⟩ := padded_code_carried h
  have hengine : engineMarked (Path.mk "/tv/Show S01E05.srt").stem (twoPlaces 1, twoPlaces 5) :=
    search_seasonEpisode.mp ⟨_, rfl, by decide⟩
  have hlibrary : libraryMarked "/tv/Show S01E05.srt" ("01", "05") :=
    search_libraryMarkedRe.mp ⟨_, rfl, by decide⟩
  have hqueue : queueMarked "/tv/Show S01E05.srt" ("01", "05") :=
    search_episodeRe.mp ⟨_, rfl, by decide⟩
  exact ⟨.marked hengine, .marked hlibrary (by decide) (by decide), "01", "05", hqueue, by decide,
    by decide⟩

theorem short_code_carried : Carries ⟨"/tv/Show S1E5.en.srt"⟩ "/tv/Show S1E5.en.srt" 1 5 := by
  have hqueue : queueMarked "/tv/Show S1E5.en.srt" ("1", "5") :=
    search_episodeRe.mp ⟨_, rfl, by decide⟩
  exact .queueMarked hqueue

/-- An episode with one digit is the episode 0 for the engine. -/
theorem short_code_differs : ¬ KeysAgree { localPath := none, seasonNumber := some 1 }
    ⟨"/tv/Show S1E5.en.srt"⟩ {} := by
  intro h
  have hengine := (h 1 5 short_code_carried).1
  revert hengine
  decide

end Trezarr
