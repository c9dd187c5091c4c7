import Trezarr.Lib.Dict
import Trezarr.Lib.Runs

/-! Tables of fair locks: a party enters the section of the lock its key names, in the order of
arrival, and a party without a key just enters. -/
open Runs

/-- A lock knows who waits for it, not who holds it. -/
structure Lock (π : Type*) where
  locked : Bool := false
  waiters : List π := []
  deriving DecidableEq, Repr

/-- The locks by their keys, and the parties between their entries and their exits. -/
structure LockTable (κ π : Type*) where
  locks : Dict κ (Lock π)
  inside : List π

inductive LockOp (κ π : Type*)
  | arrive (party : π)
  /-- The first waiter of a lock that was released goes on. -/
  | resume (k : κ)
  | leave (party : π)

namespace LockTable

variable {κ π : Type*} [DecidableEq κ]

def empty : LockTable κ π := ⟨Dict.empty, []⟩

/-- A key that was never asked for has a free lock. -/
def lock (s : LockTable κ π) (k : κ) : Lock π := (s.locks.get? k).getD {}

/-- A locked lock has one party inside, and only parties with its key wait for it. -/
structure Held (key : π → Option κ) (s : LockTable κ π) : Prop where
  one : ∀ k, s.inside.countP (key · = some k) = if (s.lock k).locked then 1 else 0
  waiting : ∀ k, ∀ p ∈ (s.lock k).waiters, key p = some k

variable {key : π → Option κ} {s : LockTable κ π} {p q : π} {k : κ} {l : Lock π}

@[simp] theorem lock_empty : (empty : LockTable κ π).lock k = {} := rfl

theorem lock_set (s : LockTable κ π) (k k' : κ) (l : Lock π) (inside : List π) :
    lock ⟨s.locks.set k l, inside⟩ k' = if k' = k then l else s.lock k' := by
  rw [lock, Dict.get?_set]
  split <;> rfl

theorem held_empty : Held key (empty : LockTable κ π) :=
  ⟨fun k => rfl, fun k p hp => by cases hp⟩

/-- A party that enters takes the lock of its key. -/
theorem Held.enter (h : Held key s) (hkey : key p = some k) (hfree : (s.lock k).locked = false)
    (hwaiters : ∀ q ∈ l.waiters, key q = some k) (hlocked : l.locked = true) :
    Held key ⟨s.locks.set k l, s.inside ++ [p]⟩ where
  one k' := by
    rw [lock_set, List.countP_append, List.countP_singleton, hkey]
    have hone := h.one k'
    by_cases hk : k' = k
    · subst hk
      rw [hfree] at hone
      simp [hone, hlocked]
    · simp [hone, hk, Ne.symm hk]
  waiting k' q hq := by
    rw [lock_set] at hq
    split at hq
    · next hk => exact hk ▸ hwaiters q hq
    · exact h.waiting k' q hq

/-- A party that takes no lock enters beside everyone. -/
theorem Held.inside_of_keyless (h : Held key s) (inside : List π)
    (hcount : ∀ k, inside.countP (key · = some k) = s.inside.countP (key · = some k)) :
    Held key { s with inside := inside } :=
  ⟨fun k => (hcount k).trans (h.one k), h.waiting⟩

variable [DecidableEq π]

def step (key : π → Option κ) (s : LockTable κ π) : LockOp κ π → LockTable κ π
  | .arrive p =>
    if p ∈ s.inside then s
    else match key p with
      | none => { s with inside := s.inside ++ [p] }
      | some k =>
        if p ∈ (s.lock k).waiters then s
        else if (s.lock k).locked = false ∧ (s.lock k).waiters = [] then
          ⟨s.locks.set k { s.lock k with locked := true }, s.inside ++ [p]⟩
        else
          { s with locks := s.locks.set k { s.lock k with waiters := (s.lock k).waiters ++ [p] } }
  | .resume k =>
    match s.lock k with
    | ⟨false, p :: rest⟩ => ⟨s.locks.set k ⟨true, rest⟩, s.inside ++ [p]⟩
    | _ => s
  | .leave p =>
    if p ∉ s.inside then s
    else match key p with
      | none => { s with inside := s.inside.erase p }
      | some k => ⟨s.locks.set k { s.lock k with locked := false }, s.inside.erase p⟩

theorem step_held (h : Held key s) (op : LockOp κ π) : Held key (step key s op) := by
  cases op with
  | arrive p =>
    simp only [step]
    split
    · exact h
    · split
      · next hkey =>
        refine h.inside_of_keyless _ fun k => ?_
        simp [List.countP_append, hkey]
      · next k hkey =>
        split
        · exact h
        · split
          · next hfree =>
            refine h.enter hkey hfree.1 (fun q hq => ?_) rfl
            exact h.waiting k q hq
          · refine ⟨fun k' => ?_, fun k' q hq => ?_⟩
            · rw [lock_set]
              split
              · next hk => exact hk ▸ h.one k
              · exact h.one k'
            · rw [lock_set] at hq
              split at hq
              · next hk =>
                rcases List.mem_append.mp hq with hq | hq
                · exact hk ▸ h.waiting k q hq
                · exact hk ▸ (List.mem_singleton.mp hq) ▸ hkey
              · exact h.waiting k' q hq
  | resume k =>
    simp only [step]
    split
    · next p rest hlock =>
      have hwaits : ∀ q ∈ p :: rest, key q = some k := by
        have hall := h.waiting k
        rw [hlock] at hall
        exact hall
      exact h.enter (hwaits p List.mem_cons_self) (by rw [hlock])
        (fun q hq => hwaits q (List.mem_cons_of_mem _ hq)) rfl
    · exact h
  | leave p =>
    simp only [step]
    split
    · exact h
    · next hp =>
      have hmem : p ∈ s.inside := not_not.mp hp
      have hcount : ∀ k', s.inside.countP (key · = some k') =
          (s.inside.erase p).countP (key · = some k') + if key p = some k' then 1 else 0 := by
        intro k'
        rw [(List.perm_cons_erase hmem).countP_eq, List.countP_cons]
        simp only [decide_eq_true_eq]
      split
      · next hkey =>
        refine h.inside_of_keyless _ fun k => ?_
        rw [hcount, hkey, if_neg (by simp), Nat.add_zero]
      · next k hkey =>
        refine ⟨fun k' => ?_, fun k' q hq => ?_⟩
        · have hone := (hcount k').symm.trans (h.one k')
          rw [lock_set]
          by_cases hk : k' = k
          · rw [if_pos hk]
            rw [hkey, if_pos (by rw [hk])] at hone
            split at hone <;> simp only [Bool.false_eq_true, if_false] <;> omega
          · rw [hkey, if_neg fun he => hk (Option.some.inj he).symm] at hone
            rw [if_neg hk]
            exact hone
        · rw [lock_set] at hq
          split at hq
          · next hk => exact hk ▸ h.waiting k q hq
          · exact h.waiting k' q hq

/-- Two parties of one key are not inside together. -/
theorem Held.exclusive (h : Held key s) (hp : p ∈ s.inside) (hq : q ∈ s.inside)
    (hkeyp : key p = some k) (hkeyq : key q = some k) : p = q := by
  by_contra hne
  have hone : s.inside.countP (key · = some k) ≤ 1 := by
    rw [h.one k]
    split <;> omega
  have hq' : q ∈ s.inside.erase p := (List.mem_erase_of_ne (Ne.symm hne)).mpr hq
  rw [(List.perm_cons_erase hp).countP_eq, List.countP_cons, decide_eq_true hkeyp, if_pos rfl] at hone
  have hpos : 0 < (s.inside.erase p).countP (key · = some k) :=
    List.countP_pos_iff.mpr ⟨q, hq', decide_eq_true hkeyq⟩
  omega

theorem run_held (ops : List (LockOp κ π)) : Held key (run (step key) empty ops) :=
  invariant_run (G := fun _ _ => True) (fun _ op hs _ => step_held hs op) held_empty
    (along_of_forall fun _ _ => trivial)

/-- An arrival leaves the other locks alone. -/
theorem lock_arrive (hkey : key p ≠ some k) : (step key s (.arrive p)).lock k = s.lock k := by
  simp only [step]
  split
  · rfl
  · split
    · rfl
    · next k' hk =>
      have hne : k ≠ k' := fun he => hkey (he ▸ hk)
      split
      · rfl
      · split
        · rw [lock_set, if_neg hne]
        · rw [lock_set, if_neg hne]

/-- A party that no lock holds back enters. -/
theorem inside_arrive (hfree : ∀ k, key p = some k → s.lock k = {}) :
    (step key s (.arrive p)).inside = if p ∈ s.inside then s.inside else s.inside ++ [p] := by
  simp only [step]
  split
  · rfl
  · cases hkey : key p with
    | none => rfl
    | some k => simp [hfree k hkey]

/-- The locks keep the parties of a relation apart in every order of their steps, just when they
name one lock. -/
theorem keeps_apart_iff (key : π → Option κ) (conflict : π → π → Prop)
    (hirrefl : ∀ p, ¬ conflict p p) :
    (∀ ops : List (LockOp κ π), ∀ p q, conflict p q →
        ¬ (p ∈ (run (step key) empty ops).inside ∧ q ∈ (run (step key) empty ops).inside)) ↔
      ∀ p q, conflict p q → key p ≠ none ∧ key p = key q := by
  constructor
  · intro h p q hpq
    have hne : q ≠ p := fun he => hirrefl p (he ▸ hpq)
    have hp : (step key empty (.arrive p)).inside = [p] :=
      inside_arrive (s := (empty : LockTable κ π)) fun _ _ => rfl
    by_contra hkeys
    have hfree : ∀ k, key q = some k → (step key empty (.arrive p)).lock k = {} := by
      intro k hk
      refine (lock_arrive fun hkey => hkeys ⟨?_, hkey.trans hk.symm⟩).trans lock_empty
      rw [hkey]
      exact Option.some_ne_none k
    have hq := inside_arrive hfree
    rw [hp, if_neg (by simpa using hne)] at hq
    refine h [.arrive p, .arrive q] p q hpq ?_
    change p ∈ (step key (step key empty (.arrive p)) (.arrive q)).inside ∧
      q ∈ (step key (step key empty (.arrive p)) (.arrive q)).inside
    rw [hq]
    simp
  · rintro h ops p q hpq ⟨hp, hq⟩
    obtain ⟨hnone, hkey⟩ := h p q hpq
    obtain ⟨k, hk⟩ := Option.ne_none_iff_exists'.mp hnone
    refine hirrefl p ?_
    have hone : p = q := (run_held ops).exclusive hp hq hk (hkey.symm.trans hk)
    exact hone ▸ hpq

end LockTable
