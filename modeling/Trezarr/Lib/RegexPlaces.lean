import Trezarr.Lib.RegexFirst

/-! The first place of a match, followed part by part through runs of one kind of character. -/
namespace Regex
open Text

/-- The first place of a text where something stands; what is before it is in reverse. -/
inductive FirstAt {α : Type} (Here : Str → Str → α → Prop) : Str → Str → α → Prop
  | here {before after : Str} {x : α} (h : Here before after x) : FirstAt Here before after x
  | later {before after : Str} {c : Char} {x : α} (hnone : ∀ y, ¬ Here before (c :: after) y)
    (h : FirstAt Here (c :: before) after x) : FirstAt Here before (c :: after) x

/-- A search finds what stands at the first place. -/
theorem searchFrom_iff {α : Type} {p : Pattern} {read : Found → α} {Here : Str → Str → α → Prop}
    (hread : ∀ f skipped, read { f with skipped } = read f)
    (hhere : ∀ before after x, (∃ f, matchAt p before after = some f ∧ read f = x) ↔
      Here before after x) {before s : Str} {x : α} :
    (∃ f, searchFrom p before s = some f ∧ read f = x) ↔ FirstAt Here before s x := by
  induction s generalizing before with
  | nil =>
    rw [searchFrom, hhere]
    constructor
    · exact .here
    · intro h
      cases h with
      | here h => exact h
  | cons c s ih =>
    cases hmatch : matchAt p before (c :: s) with
    | some f =>
      have hsearch : searchFrom p before (c :: s) = matchAt p before (c :: s) := by
        simp [searchFrom, hmatch]
      rw [hsearch, hhere]
      constructor
      · exact .here
      · intro h
        cases h with
        | here h => exact h
        | later hnone _ => exact absurd ((hhere _ _ _).mp ⟨f, hmatch, rfl⟩) (hnone _)
    | none =>
      have hnone : ∀ y, ¬ Here before (c :: s) y := by
        intro y hy
        obtain ⟨f, hf, _⟩ := (hhere _ _ _).mpr hy
        cases hmatch.symm.trans hf
      have hsearch : (∃ f, searchFrom p before (c :: s) = some f ∧ read f = x) ↔
          ∃ f, searchFrom p (c :: before) s = some f ∧ read f = x := by
        simp only [searchFrom, hmatch, Option.map_eq_some_iff]
        constructor
        · rintro ⟨_, ⟨f, hf, rfl⟩, rfl⟩
          exact ⟨f, hf, (hread f _).symm⟩
        · rintro ⟨f, hf, rfl⟩
          exact ⟨_, ⟨f, hf, rfl⟩, hread f _⟩
      rw [hsearch, ih]
      constructor
      · exact .later hnone
      · intro h
        cases h with
        | here h => exact absurd h (hnone _)
        | later _ h => exact h

/-- The longest front of a text with one kind of character in it and a length that is allowed. -/
structure Longest (p : Char → Bool) (width : ℕ → Prop) (s w r : Str) : Prop where
  eq : s = w ++ r
  all : ∀ c ∈ w, p c = true
  fits : width w.length
  longest : ∀ w' r', s = w' ++ r' → (∀ c ∈ w', p c = true) → width w'.length →
    w'.length ≤ w.length

section Runs

variable {p : Char → Bool} {width : ℕ → Prop} {s w r w' r' : Str}

theorem Longest.unique (h : Longest p width s w r) (h' : Longest p width s w' r') :
    w = w' ∧ r = r' := by
  have hlength : w.length = w'.length :=
    Nat.le_antisymm (h'.longest w r h.eq h.all h.fits) (h.longest w' r' h'.eq h'.all h'.fits)
  exact List.append_inj (h.eq.symm.trans h'.eq) hlength

/-- A front that other characters come after is the longest one. -/
theorem Longest.of_stop (hall : ∀ c ∈ w, p c = true) (hfits : width w.length)
    (hstop : ∀ c, r.head? = some c → p c = false) : Longest p width (w ++ r) w r := by
  refine ⟨rfl, hall, hfits, fun w' r' heq hall' _ => ?_⟩
  by_contra hlt
  rcases List.append_eq_append_iff.mp heq with ⟨front, rfl, hr⟩ | ⟨front, rfl, _⟩
  · cases front with
    | nil => simp at hlt
    | cons c front =>
      rw [hr] at hstop
      have hc := hall' c (by simp)
      rw [hstop c rfl] at hc
      cases hc
  · simp at hlt

/-- A run that may have any greater length ends where its kind of character does. -/
theorem Longest.stops (h : Longest p width s w r) (hwidth : ∀ n, width n → width (n + 1)) :
    ∀ c, r.head? = some c → p c = false := by
  intro c hc
  obtain ⟨r', rfl⟩ := List.head?_eq_some_iff.mp hc
  cases hp : p c with
  | false => rfl
  | true =>
    have hall : ∀ x ∈ w ++ [c], p x = true := by
      intro x hx
      rcases List.mem_append.mp hx with hx | hx
      · exact h.all x hx
      · rw [List.mem_singleton.mp hx]
        exact hp
    have hlonger := h.longest (w ++ [c]) r' (by rw [h.eq, List.append_assoc]; rfl) hall
      (by rw [List.length_append]; exact hwidth _ h.fits)
    rw [List.length_append, List.length_singleton] at hlonger
    omega

end Runs

/-- A part of what is ahead is passed. -/
def Cursor.move (c : Cursor) (w r : Str) : Cursor := ⟨w.reverse ++ c.before, r, c.groups⟩

@[simp] theorem Cursor.move_after (c : Cursor) (w r : Str) : (c.move w r).after = r := rfl

@[simp] theorem Cursor.move_groups (c : Cursor) (w r : Str) : (c.move w r).groups = c.groups := rfl

namespace Pattern

variable {p : Char → Bool} {width : ℕ → Prop} {a b : Pattern} {c d e : Cursor} {w r : Str} {n : ℕ}

/-- A pattern for runs of one kind of character that tries the longest first. -/
structure Runs (p : Char → Bool) (width : ℕ → Prop) (a : Pattern) : Prop where
  mem_results : ∀ {c e}, e ∈ a.results c ↔ ∃ w r, c.after = w ++ r ∧ (∀ x ∈ w, p x = true) ∧
    width w.length ∧ e = c.move w r
  longest : ∀ {c d e}, a.first c = some d → e ∈ a.results c → d.after.length ≤ e.after.length

theorem Runs.eps : Runs p (· = 0) eps where
  mem_results {c e} := by
    constructor
    · intro h
      exact ⟨[], c.after, rfl, nofun, rfl, List.mem_singleton.mp h⟩
    · rintro ⟨w, r, hafter, _, hlength, rfl⟩
      cases List.eq_nil_of_length_eq_zero hlength
      obtain ⟨before, after, groups⟩ := c
      cases hafter
      exact List.mem_singleton.mpr rfl
  longest h he := by
    cases h
    rw [List.mem_singleton.mp he]

theorem mem_results_set : e ∈ (set p).results c ↔
    ∃ x r, c.after = x :: r ∧ p x = true ∧ e = c.move [x] r := by
  cases hafter : c.after with
  | nil => simp [results, hafter]
  | cons x rest =>
    by_cases hx : p x = true
    · simp [results, hafter, hx, Cursor.move]
    · simp [results, hafter, hx]

theorem Runs.set : Runs p (· = 1) (set p) where
  mem_results {c e} := by
    rw [mem_results_set]
    constructor
    · rintro ⟨x, r, hafter, hx, rfl⟩
      exact ⟨[x], r, hafter, List.forall_mem_singleton.mpr hx, rfl, rfl⟩
    · rintro ⟨w, r, hafter, hw, hlength, rfl⟩
      obtain ⟨x, rfl⟩ := List.length_eq_one_iff.mp hlength
      exact ⟨x, r, hafter, hw x List.mem_cons_self, rfl⟩
  longest {c d e} h he := by
    obtain ⟨x, r, hafter, _, rfl⟩ := mem_results_set.mp he
    obtain ⟨y, s, hafter', _, rfl⟩ := mem_results_set.mp (List.mem_of_mem_head? h)
    cases hafter.symm.trans hafter'
    exact le_rfl

/-- What is tried first of a sequence goes on from a match of its first part. -/
theorem exists_of_first_seq (h : (seq a b).first c = some d) :
    ∃ e ∈ a.results c, b.first e = some d := by
  unfold first at h
  simp only [results, List.head?_flatMap] at h
  exact List.exists_of_findSome?_eq_some h

theorem first_seq_set : (seq (set p) b).first c = some d ↔
    ∃ x r, c.after = x :: r ∧ p x = true ∧ b.first (c.move [x] r) = some d := by
  constructor
  · intro h
    obtain ⟨e, he, hfirst⟩ := exists_of_first_seq h
    obtain ⟨x, r, hafter, hx, rfl⟩ := mem_results_set.mp he
    exact ⟨x, r, hafter, hx, hfirst⟩
  · rintro ⟨x, r, hafter, hx, hfirst⟩
    exact first_seq (first_set hafter hx) hfirst

theorem Runs.cons (h : Runs p width a) :
    Runs p (fun n => ∃ m, n = m + 1 ∧ width m) (seq (Pattern.set p) a) where
  mem_results {c e} := by
    simp only [results.eq_3, List.mem_flatMap, mem_results_set, h.mem_results]
    constructor
    · rintro ⟨_, ⟨x, r, hafter, hx, rfl⟩, w, s, hr, hw, hwidth, rfl⟩
      have hr : r = w ++ s := hr
      refine ⟨x :: w, s, ?_, List.forall_mem_cons.mpr ⟨hx, hw⟩, ⟨_, rfl, hwidth⟩, ?_⟩
      · rw [hafter, hr]
        rfl
      · simp [Cursor.move]
    · rintro ⟨w, r, hafter, hw, ⟨m, hlength, hwidth⟩, rfl⟩
      cases w with
      | nil => cases hlength
      | cons x w =>
        cases hlength
        obtain ⟨hx, hw⟩ := List.forall_mem_cons.mp hw
        refine ⟨_, ⟨x, w ++ r, hafter, hx, rfl⟩, w, r, rfl, hw, hwidth, ?_⟩
        simp [Cursor.move]
  longest {c d e} hfirst he := by
    obtain ⟨x, r, hafter, hx, hd⟩ := first_seq_set.mp hfirst
    obtain ⟨e', he', he⟩ := List.mem_flatMap.mp he
    obtain ⟨y, s, hafter', _, rfl⟩ := mem_results_set.mp he'
    cases hafter.symm.trans hafter'
    exact h.longest hd he

theorem Runs.opt (h : Runs p width a) : Runs p (fun n => width n ∨ n = 0) (opt a) where
  mem_results {c e} := by
    simp only [Pattern.opt, results, List.mem_append, h.mem_results, List.mem_singleton]
    constructor
    · rintro (⟨w, r, hafter, hw, hwidth, rfl⟩ | rfl)
      · exact ⟨w, r, hafter, hw, .inl hwidth, rfl⟩
      · exact ⟨[], e.after, rfl, List.forall_mem_nil _, .inr rfl, rfl⟩
    · rintro ⟨w, r, hafter, hw, hwidth | hlength, rfl⟩
      · exact .inl ⟨w, r, hafter, hw, hwidth, rfl⟩
      · cases List.eq_nil_of_length_eq_zero hlength
        obtain ⟨before, after, groups⟩ := c
        cases hafter
        exact .inr rfl
  longest {c d e} hfirst he := by
    cases ha : a.first c with
    | none =>
      rw [Pattern.opt, first_alt_right ha] at hfirst
      cases hfirst
      rw [Pattern.opt, results, List.head?_eq_none_iff.mp ha] at he
      rw [List.mem_singleton.mp he]
    | some d' =>
      cases hfirst.symm.trans (first_alt_left ha)
      rcases List.mem_append.mp he with he | he
      · exact h.longest ha he
      · obtain ⟨w, r, hafter, _, _, rfl⟩ := h.mem_results.mp (List.mem_of_mem_head? ha)
        rw [List.mem_singleton.mp he, hafter]
        simp

theorem mem_iterate_set : ∀ {n : ℕ} {c : Cursor}, c.after.length ≤ n →
    (e ∈ iterate (set p).results n c ↔
      ∃ w r, c.after = w ++ r ∧ (∀ x ∈ w, p x = true) ∧ e = c.move w r) := by
  intro n
  induction n with
  | zero =>
    intro c hlength
    obtain ⟨before, after, groups⟩ := c
    cases List.eq_nil_of_length_eq_zero (Nat.le_zero.mp hlength)
    rw [iterate, List.mem_singleton]
    constructor
    · rintro rfl
      exact ⟨[], [], rfl, List.forall_mem_nil _, rfl⟩
    · rintro ⟨w, r, heq, _, rfl⟩
      obtain ⟨rfl, rfl⟩ := List.append_eq_nil_iff.mp heq.symm
      rfl
  | succ n ih =>
    intro c hlength
    simp only [iterate, List.mem_append, List.mem_flatMap, List.mem_filter, mem_results_set,
      List.mem_singleton]
    constructor
    · rintro (⟨_, ⟨⟨x, r, hafter, hx, rfl⟩, _⟩, he⟩ | rfl)
      · rw [hafter] at hlength
        obtain ⟨w, s, hr, hw, rfl⟩ := (ih (Nat.le_of_succ_le_succ hlength)).mp he
        have hr : r = w ++ s := hr
        refine ⟨x :: w, s, by rw [hafter, hr]; rfl, List.forall_mem_cons.mpr ⟨hx, hw⟩, ?_⟩
        simp [Cursor.move]
      · exact ⟨[], e.after, rfl, List.forall_mem_nil _, rfl⟩
    · rintro ⟨w, r, hafter, hw, rfl⟩
      cases w with
      | nil =>
        obtain ⟨before, after, groups⟩ := c
        cases hafter
        exact .inr rfl
      | cons x w =>
        obtain ⟨hx, hw⟩ := List.forall_mem_cons.mp hw
        rw [hafter] at hlength
        refine .inl ⟨_, ⟨⟨x, w ++ r, hafter, hx, rfl⟩, by simp [hafter]⟩, ?_⟩
        have hshort : (c.move [x] (w ++ r)).after.length ≤ n := Nat.le_of_succ_le_succ hlength
        refine (ih hshort).mpr ⟨w, r, rfl, hw, ?_⟩
        simp [Cursor.move]

theorem Runs.star : Runs p (fun _ => True) (star (Pattern.set p)) where
  mem_results {c e} := by
    simp only [results, true_and]
    exact mem_iterate_set le_rfl
  longest {c d e} hfirst he := by
    rw [first_star_set] at hfirst
    cases hfirst
    obtain ⟨w, r, hafter, hw, rfl⟩ := (mem_iterate_set le_rfl).mp he
    rw [hafter, List.dropWhile_append_of_pos hw]
    exact List.length_dropWhile_le p r

/-- So many at most. -/
def atMost (a : Pattern) : ℕ → Pattern
  | 0 => eps
  | n + 1 => opt (seq a (a.atMost n))

theorem Runs.congr {width' : ℕ → Prop} (h : Runs p width a) (hwidth : ∀ n, width n ↔ width' n) :
    Runs p width' a := by
  have hsame : width = width' := funext fun n => propext (hwidth n)
  rwa [← hsame]

theorem Runs.atMost (p : Char → Bool) : ∀ n, Runs p (· ≤ n) ((Pattern.set p).atMost n)
  | 0 => Runs.eps.congr fun n => Nat.le_zero.symm
  | n + 1 => by
    refine ((Runs.atMost p n).cons.opt).congr fun k => ?_
    constructor
    · rintro (⟨m, rfl, hm⟩ | rfl)
      · omega
      · omega
    · intro hk
      cases k with
      | zero => exact .inr rfl
      | succ k => exact .inl ⟨k, rfl, Nat.le_of_succ_le_succ hk⟩

theorem Runs.first_iff (h : Runs p width a) : a.first c = some d ↔
    ∃ w r, Longest p width c.after w r ∧ d = c.move w r := by
  have hlongest : ∀ {d}, a.first c = some d → ∃ w r, Longest p width c.after w r ∧
      d = c.move w r := by
    intro d hfirst
    obtain ⟨w, r, hafter, hw, hwidth, rfl⟩ := h.mem_results.mp (List.mem_of_mem_head? hfirst)
    refine ⟨w, r, ⟨hafter, hw, hwidth, fun w' r' heq hw' hwidth' => ?_⟩, rfl⟩
    have hle := h.longest hfirst (h.mem_results.mpr ⟨w', r', heq, hw', hwidth', rfl⟩)
    have hlength := congrArg List.length (hafter.symm.trans heq)
    simp only [List.length_append, Cursor.move_after] at hlength hle
    omega
  constructor
  · exact hlongest
  · rintro ⟨w, r, hw, rfl⟩
    have hmem := h.mem_results.mpr ⟨w, r, hw.eq, hw.all, hw.fits, rfl⟩
    obtain ⟨d, ds, hds⟩ := List.exists_cons_of_ne_nil (List.ne_nil_of_mem hmem)
    have hfirst : a.first c = some d := by
      unfold first
      rw [hds]
      rfl
    obtain ⟨w', r', hw', rfl⟩ := hlongest hfirst
    obtain ⟨rfl, rfl⟩ := hw.unique hw'
    exact hfirst

/-- A run that the rest of the pattern stops is followed through as the longest one. -/
theorem Runs.first_seq_iff (h : Runs p width a)
    (hstop : ∀ e, b.first e = some d → ∀ x, e.after.head? = some x → p x = false) :
    (seq a b).first c = some d ↔
      ∃ w r, Longest p width c.after w r ∧ b.first (c.move w r) = some d := by
  constructor
  · intro hfirst
    obtain ⟨e, he, hb⟩ := exists_of_first_seq hfirst
    obtain ⟨w, r, hafter, hw, hwidth, rfl⟩ := h.mem_results.mp he
    refine ⟨w, r, ?_, hb⟩
    rw [hafter]
    exact .of_stop hw hwidth (hstop _ hb)
  · rintro ⟨w, r, hw, hb⟩
    exact first_seq (h.first_iff.mpr ⟨w, r, hw, rfl⟩) hb

def Cursor.note (c : Cursor) (n : ℕ) (w r : Str) : Cursor :=
  { c.move w r with groups := (n, w) :: c.groups }

theorem upTo_move (hafter : c.after = w ++ r) : c.upTo (c.move w r) = w := by
  simp [Cursor.upTo, hafter]

theorem Runs.first_group_iff (h : Runs p width a) : (group n a).first c = some d ↔
    ∃ w r, Longest p width c.after w r ∧ d = Cursor.note c n w r := by
  have hgroup : (group n a).first c =
      (a.first c).map fun e => { e with groups := (n, c.upTo e) :: e.groups } := by
    simp [first, results, List.head?_map]
  rw [hgroup, Option.map_eq_some_iff]
  constructor
  · rintro ⟨e, he, rfl⟩
    obtain ⟨w, r, hw, rfl⟩ := h.first_iff.mp he
    refine ⟨w, r, hw, ?_⟩
    rw [upTo_move hw.eq]
    rfl
  · rintro ⟨w, r, hw, rfl⟩
    refine ⟨_, h.first_iff.mpr ⟨w, r, hw, rfl⟩, ?_⟩
    rw [upTo_move hw.eq]
    rfl

theorem Runs.first_group_seq_iff (h : Runs p width a)
    (hstop : ∀ e, b.first e = some d → ∀ x, e.after.head? = some x → p x = false) :
    (seq (group n a) b).first c = some d ↔
      ∃ w r, Longest p width c.after w r ∧ b.first (Cursor.note c n w r) = some d := by
  constructor
  · intro hfirst
    obtain ⟨e, he, hb⟩ := exists_of_first_seq hfirst
    obtain ⟨e', he', rfl⟩ := List.mem_map.mp he
    obtain ⟨w, r, hafter, hw, hwidth, rfl⟩ := h.mem_results.mp he'
    rw [upTo_move hafter] at hb
    refine ⟨w, r, ?_, hb⟩
    rw [hafter]
    exact .of_stop hw hwidth (hstop _ hb)
  · rintro ⟨w, r, hw, hb⟩
    exact first_seq (h.first_group_iff.mpr ⟨w, r, hw, rfl⟩) hb

@[simp] theorem first_seq_eps : (seq a eps).first c = a.first c := by
  simp [first, results]

/-- A noted part is passed with the separator after it. -/
def Cursor.field (c : Cursor) (n : ℕ) (w : Str) (x : Char) (r : Str) : Cursor :=
  ⟨x :: (w.reverse ++ c.before), r, (n, w) :: c.groups⟩

theorem Runs.first_field_iff {sep : Char → Bool} (h : Runs p width a)
    (hsep : ∀ x, sep x = true → p x = false) :
    (seq (group n a) (seq (Pattern.set sep) b)).first c = some d ↔
      ∃ w x r, c.after = w ++ x :: r ∧ (∀ y ∈ w, p y = true) ∧ width w.length ∧ sep x = true ∧
        b.first (Cursor.field c n w x r) = some d := by
  have hstop : ∀ e, (seq (Pattern.set sep) b).first e = some d →
      ∀ x, e.after.head? = some x → p x = false := by
    intro e he x hx
    obtain ⟨y, r, hafter, hy, _⟩ := first_seq_set.mp he
    rw [hafter] at hx
    cases hx
    exact hsep _ hy
  rw [h.first_group_seq_iff hstop]
  constructor
  · rintro ⟨w, r, hw, hrest⟩
    obtain ⟨x, r, rfl, hx, hb⟩ := first_seq_set.mp hrest
    exact ⟨w, x, r, hw.eq, hw.all, hw.fits, hx, hb⟩
  · rintro ⟨w, x, r, hafter, hw, hwidth, hx, hb⟩
    refine ⟨w, x :: r, ?_, first_seq_set.mpr ⟨x, r, rfl, hx, hb⟩⟩
    rw [hafter]
    refine .of_stop hw hwidth fun y hy => ?_
    cases hy
    exact hsep _ hx

/-- A noted part that the text ends with. -/
theorem Runs.first_last_iff (h : Runs p width a) (hbreak : p '\n' = false) :
    (seq (group n a) (seq finish Pattern.eps)).first c = some d ↔
      ∃ w r, c.after = w ++ r ∧ (∀ y ∈ w, p y = true) ∧ width w.length ∧ (r = [] ∨ r = ['\n']) ∧
        d = Cursor.note c n w r := by
  have hfinish : ∀ {e}, (seq finish Pattern.eps).first e = some d ↔
      (e.after = [] ∨ e.after = ['\n']) ∧ d = e := by
    intro e
    rw [first_seq_eps, first, results]
    split
    next hend => simp [hend, eq_comm]
    next hend => simp [hend]
  have hstops : ∀ {r : Str}, r = [] ∨ r = ['\n'] → ∀ x, r.head? = some x → p x = false := by
    rintro r (rfl | rfl) x hx
    · cases hx
    · cases hx
      exact hbreak
  rw [h.first_group_seq_iff fun e he => hstops (hfinish.mp he).1]
  constructor
  · rintro ⟨w, r, hw, hrest⟩
    obtain ⟨hend, rfl⟩ := hfinish.mp hrest
    exact ⟨w, r, hw.eq, hw.all, hw.fits, hend, rfl⟩
  · rintro ⟨w, r, hafter, hw, hwidth, hend, rfl⟩
    refine ⟨w, r, ?_, hfinish.mpr ⟨hend, rfl⟩⟩
    rw [hafter]
    exact .of_stop hw hwidth (hstops hend)

theorem first_notBehind_seq : (seq (notBehind p) b).first c = some d ↔
    c.before.head?.any p = false ∧ b.first c = some d := by
  cases hbehind : c.before.head?.any p with
  | true => simp [first, results, hbehind]
  | false => simp [first, results, hbehind]

theorem first_notAhead_seq : (seq (notAhead (set p)) b).first c = some d ↔
    (∀ x, c.after.head? = some x → p x = false) ∧ b.first c = some d := by
  cases hafter : c.after with
  | nil => simp [first, results, hafter]
  | cons x rest =>
    cases hx : p x with
    | true => simp [first, results, hafter, hx]
    | false => simp [first, results, hafter, hx]

end Pattern
end Regex
