import Mathlib.Data.List.Infix
import Mathlib.Logic.Function.Basic

/-! Files that are put into place as a whole: each writer reserves a temporary name, writes under a
name that follows from it and renames, among others that do the same and fail or crash anywhere. -/
namespace AtomicReplace

set_option linter.unusedSectionVars false

/-- What is written and where to: the names that may be reserved for it, and the one to write
under once a name is. -/
structure Job (ν β : Type*) where
  dest : ν
  temp : ν → Prop
  route : ν → ν
  content : List β

inductive Stage (ν : Type*)
  | idle
  | reserved (slot : ν)
  | writing (slot : ν) (inode : ℕ)
  | closed (slot : ν) (inode : ℕ)
  /-- The names that are still to be removed; without any the writer is done. -/
  | cleaning (slot routed : Option ν)
  | crashed

/-- A directory, the files its names lead to, and how far each writer is. -/
structure State (ι ν β : Type*) where
  names : ν → Option ℕ
  data : ℕ → List β
  next : ℕ
  stage : ι → Stage ν

namespace Stage

variable {ν β : Type*}

def held : Stage ν → Option ν
  | reserved slot => some slot
  | writing slot _ => some slot
  | closed slot _ => some slot
  | cleaning slot _ => slot
  | _ => none

/-- The slot and the file of a writer that has opened it. -/
def opened : Stage ν → Option (ν × ℕ)
  | writing slot n => some (slot, n)
  | closed slot n => some (slot, n)
  | _ => none

/-- The names that a writer has yet to remove or to rename. -/
def owns (job : Job ν β) : Stage ν → ν → Prop
  | reserved slot, name => slot = name
  | writing slot _, name => slot = name ∨ job.route slot = name
  | closed slot _, name => slot = name ∨ job.route slot = name
  | cleaning slot routed, name => slot = some name ∨ routed = some name
  | _, _ => False

def ended : Stage ν → Prop
  | idle => True
  | cleaning none none => True
  | _ => False

end Stage

variable {ι ν β : Type*} [DecidableEq ι] [DecidableEq ν]

namespace State

def setStage (s : State ι ν β) (i : ι) (stage : Stage ν) : State ι ν β :=
  { s with stage := Function.update s.stage i stage }

def create (s : State ι ν β) (name : ν) : State ι ν β :=
  { s with
    names := Function.update s.names name (some s.next)
    data := Function.update s.data s.next []
    next := s.next + 1 }

def put (s : State ι ν β) (n : ℕ) (content : List β) : State ι ν β :=
  { s with data := Function.update s.data n content }

def unlink (s : State ι ν β) (name : ν) : State ι ν β :=
  { s with names := Function.update s.names name none }

def rename (s : State ι ν β) (name dest : ν) : State ι ν β :=
  { s with names := Function.update (Function.update s.names dest (s.names name)) name none }

/-- What is read under a name. -/
def contentAt (s : State ι ν β) (name : ν) : Option (List β) := (s.names name).map s.data

end State

/-- One step of a writer; a rename is labelled with it. -/
inductive Step (jobs : ι → Job ν β) (mayCrash : Prop) (s : State ι ν β) :
    Option ι → State ι ν β → Prop
  | reserve (i : ι) (slot : ν) (hidle : s.stage i = .idle) (htemp : (jobs i).temp slot)
    (hfree : s.names slot = none) :
    Step jobs mayCrash s none ((s.create slot).setStage i (.reserved slot))
  | create (i : ι) (slot : ν) (hstage : s.stage i = .reserved slot)
    (hnone : s.names ((jobs i).route slot) = none) :
    Step jobs mayCrash s none
      ((s.create ((jobs i).route slot)).setStage i (.writing slot s.next))
  | truncate (i : ι) (slot : ν) (n : ℕ) (hstage : s.stage i = .reserved slot)
    (hsome : s.names ((jobs i).route slot) = some n) :
    Step jobs mayCrash s none ((s.put n []).setStage i (.writing slot n))
  | write (i : ι) (slot : ν) (n : ℕ) (front : List β) (hstage : s.stage i = .writing slot n)
    (hfront : front <+: (jobs i).content) : Step jobs mayCrash s none (s.put n front)
  | close (i : ι) (slot : ν) (n : ℕ) (hstage : s.stage i = .writing slot n) :
    Step jobs mayCrash s none ((s.put n (jobs i).content).setStage i (.closed slot n))
  | replace (i : ι) (slot : ν) (n m : ℕ) (hstage : s.stage i = .closed slot n)
    (hsome : s.names ((jobs i).route slot) = some m) :
    Step jobs mayCrash s (some i) ((s.rename ((jobs i).route slot) (jobs i).dest).setStage i
      (.cleaning (if (jobs i).route slot = slot then none else some slot) none))
  | fail (i : ι) (slot : ν) (hstage : s.stage i = .reserved slot ∨
      ∃ n, s.stage i = .writing slot n ∨ s.stage i = .closed slot n) :
    Step jobs mayCrash s none (s.setStage i (.cleaning (some slot)
      (if (jobs i).route slot = slot then none else some ((jobs i).route slot))))
  | unlinkSlot (i : ι) (slot : ν) (routed : Option ν)
    (hstage : s.stage i = .cleaning (some slot) routed) :
    Step jobs mayCrash s none ((s.unlink slot).setStage i (.cleaning none routed))
  | unlinkRouted (i : ι) (routed : ν) (hstage : s.stage i = .cleaning none (some routed)) :
    Step jobs mayCrash s none ((s.unlink routed).setStage i (.cleaning none none))
  | crash (i : ι) (hcrash : mayCrash) : Step jobs mayCrash s none (s.setStage i .crashed)

/-- A run, with the renames in their order. -/
inductive Run (jobs : ι → Job ν β) (mayCrash : Prop) (s : State ι ν β) :
    List ι → State ι ν β → Prop
  | start : Run jobs mayCrash s [] s
  | step {renames : List ι} {t u : State ι ν β} {label : Option ι}
    (hrun : Run jobs mayCrash s renames t) (hstep : Step jobs mayCrash t label u) :
    Run jobs mayCrash s (renames ++ label.toList) u

/-- Names that are never mixed up: the temporary ones, those written under, the destinations. -/
structure Apart (jobs : ι → Job ν β) (side : ν → Prop) : Prop where
  temp_side : ∀ i slot, (jobs i).temp slot → side slot
  route_side : ∀ i slot, (jobs i).temp slot → side ((jobs i).route slot)
  dest : ∀ i, ¬ side (jobs i).dest
  route_injective : ∀ i j slot slot', (jobs i).temp slot → (jobs j).temp slot' →
    (jobs i).route slot = (jobs j).route slot' → slot = slot'
  route_temp : ∀ i j slot slot', (jobs i).temp slot → (jobs j).temp slot' →
    (jobs i).route slot = slot' → slot = slot'

/-- Nobody has started, and what is left from before under a temporary name is linked once. -/
structure Ready (side : ν → Prop) (s : State ι ν β) : Prop where
  idle : ∀ i, s.stage i = .idle
  linked : ∀ name n, s.names name = some n → n < s.next
  single : ∀ a b n, side a → s.names a = some n → s.names b = some n → a = b

/-- What the destinations hold once a writer has renamed its file. -/
def written (jobs : ι → Job ν β) (store : ν → Option (List β)) (i : ι) : ν → Option (List β) :=
  Function.update store (jobs i).dest (some (jobs i).content)

/-- What every step keeps, whoever takes it. -/
structure Kept (jobs : ι → Job ν β) (side : ν → Prop) (s : State ι ν β) : Prop where
  linked : ∀ name n, s.names name = some n → n < s.next
  /-- A file under a temporary name has no other name. -/
  single : ∀ a b n, side a → s.names a = some n → s.names b = some n → a = b
  reserved : ∀ i slot, (s.stage i).held = some slot → (jobs i).temp slot
  present : ∀ i slot, (s.stage i).held = some slot → s.names slot ≠ none
  exclusive : ∀ i j slot, (s.stage i).held = some slot → (s.stage j).held = some slot → i = j
  opened : ∀ i slot n, (s.stage i).opened = some (slot, n) → n < s.next ∧
    (∀ m, s.names ((jobs i).route slot) = some m → m = n) ∧
    (∀ name, s.names name = some n → name = (jobs i).route slot)
  apart : ∀ i j slot slot' n, (s.stage i).opened = some (slot, n) →
    (s.stage j).opened = some (slot', n) → i = j
  closed : ∀ i slot n, s.stage i = .closed slot n → s.data n = (jobs i).content
  routed : ∀ i slot name, s.stage i = .cleaning slot (some name) →
    side name ∧ ∀ j, ¬ (jobs j).temp name

/-- A temporary name leads to a file only while a writer has yet to remove it, or from before. -/
def Clean (jobs : ι → Job ν β) (side left : ν → Prop) (s : State ι ν β) : Prop :=
  ∀ name, side name → s.names name ≠ none → left name ∨ ∃ i, (s.stage i).owns (jobs i) name

variable {jobs : ι → Job ν β} {side left : ν → Prop} {mayCrash : Prop} {s t u : State ι ν β}
  {i : ι} {name dest : ν} {n m : ℕ} {label : Option ι} {renames : List ι}

section Operations

theorem held_of_opened {stage : Stage ν} {slot : ν} (h : stage.opened = some (slot, n)) :
    stage.held = some slot := by
  cases stage with
  | writing slot' m =>
    cases h
    rfl
  | closed slot' m =>
    cases h
    rfl
  | idle => cases h
  | reserved => cases h
  | cleaning => cases h
  | crashed => cases h

theorem stage_setStage (st : Stage ν) (j : ι) :
    (s.setStage i st).stage j = if j = i then st else s.stage j :=
  Function.update_apply s.stage i st j

theorem Kept.setStage (h : Kept jobs side s) (st : Stage ν)
    (hheld : ∀ slot, st.held = some slot → (jobs i).temp slot ∧ s.names slot ≠ none ∧
      ∀ j, j ≠ i → (s.stage j).held ≠ some slot)
    (hopened : ∀ slot n, st.opened = some (slot, n) → n < s.next ∧
      (∀ m, s.names ((jobs i).route slot) = some m → m = n) ∧
      (∀ name, s.names name = some n → name = (jobs i).route slot) ∧
      ∀ j slot', j ≠ i → (s.stage j).opened ≠ some (slot', n))
    (hclosed : ∀ slot n, st = .closed slot n → s.data n = (jobs i).content)
    (hrouted : ∀ slot name, st = .cleaning slot (some name) →
      side name ∧ ∀ j, ¬ (jobs j).temp name) :
    Kept jobs side (s.setStage i st) where
  linked := h.linked
  single := h.single
  reserved j slot hj := by
    rw [stage_setStage] at hj
    split at hj
    next hji =>
      rw [hji]
      exact (hheld slot hj).1
    next => exact h.reserved j slot hj
  present j slot hj := by
    rw [stage_setStage] at hj
    split at hj
    next => exact (hheld slot hj).2.1
    next => exact h.present j slot hj
  exclusive j k slot hj hk := by
    rw [stage_setStage] at hj hk
    split at hj <;> split at hk
    next hji hki => rw [hji, hki]
    next hji hki => exact absurd hk ((hheld slot hj).2.2 k hki)
    next hji hki => exact absurd hj ((hheld slot hk).2.2 j hji)
    next => exact h.exclusive j k slot hj hk
  opened j slot n hj := by
    rw [stage_setStage] at hj
    split at hj
    next hji =>
      subst hji
      obtain ⟨hlt, hname, honly, _⟩ := hopened slot n hj
      exact ⟨hlt, hname, honly⟩
    next => exact h.opened j slot n hj
  apart j k slot slot' n hj hk := by
    rw [stage_setStage] at hj hk
    split at hj <;> split at hk
    next hji hki => rw [hji, hki]
    next hji hki => exact absurd hk ((hopened slot n hj).2.2.2 k slot' hki)
    next hji hki => exact absurd hj ((hopened slot' n hk).2.2.2 j slot hji)
    next => exact h.apart j k slot slot' n hj hk
  closed j slot n hj := by
    rw [stage_setStage] at hj
    split at hj
    next hji =>
      subst hji
      exact hclosed slot n hj
    next => exact h.closed j slot n hj
  routed j slot name hj := by
    rw [stage_setStage] at hj
    split at hj
    next => exact hrouted slot name hj
    next => exact h.routed j slot name hj

/-- A writer that goes on to clean up, or is gone, has its file open no more. -/
theorem Kept.leave (h : Kept jobs side s) (st : Stage ν)
    (hheld : ∀ slot, st.held = some slot → (s.stage i).held = some slot)
    (hopened : st.opened = none)
    (hrouted : ∀ slot name, st = .cleaning slot (some name) →
      side name ∧ ∀ j, ¬ (jobs j).temp name) :
    Kept jobs side (s.setStage i st) := by
  refine h.setStage st (fun slot hslot => ?_) (fun slot n hslot => ?_) (fun slot n hst => ?_)
    hrouted
  · have hi := hheld slot hslot
    exact ⟨h.reserved i slot hi, h.present i slot hi, fun j hj hheld' =>
      hj (h.exclusive j i slot hheld' hi)⟩
  · rw [hopened] at hslot
    cases hslot
  · rw [hst] at hopened
    cases hopened

theorem Kept.create (h : Kept jobs side s) (hopen : ∀ j slot n,
    (s.stage j).opened = some (slot, n) → (jobs j).route slot ≠ name) :
    Kept jobs side (s.create name) := by
  have hnames : ∀ a, (s.create name).names a = if a = name then some s.next else s.names a :=
    Function.update_apply s.names name _
  refine ⟨fun a n ha => ?_, fun a b n hside ha hb => ?_, h.reserved, fun j slot hj => ?_,
    h.exclusive, fun j slot n hj => ?_, h.apart, fun j slot n hj => ?_, h.routed⟩
  · rw [hnames] at ha
    split at ha
    next =>
      cases ha
      exact Nat.lt_succ_self _
    next => exact Nat.lt_succ_of_lt (h.linked a n ha)
  · rw [hnames] at ha hb
    split at ha <;> split at hb
    next hx hy => rw [hx, hy]
    next =>
      cases ha
      exact absurd (h.linked b _ hb) (Nat.lt_irrefl _)
    next =>
      cases hb
      exact absurd (h.linked a _ ha) (Nat.lt_irrefl _)
    next => exact h.single a b n hside ha hb
  · rw [hnames]
    split
    next => exact Option.some_ne_none _
    next => exact h.present j slot hj
  · obtain ⟨hlt, hname, honly⟩ := h.opened j slot n hj
    refine ⟨Nat.lt_succ_of_lt hlt, fun m hm => ?_, fun a ha => ?_⟩
    · rw [hnames, if_neg (hopen j slot n hj)] at hm
      exact hname m hm
    · rw [hnames] at ha
      split at ha
      next =>
        cases ha
        exact absurd hlt (Nat.lt_irrefl _)
      next => exact honly a ha
  · have hstage : s.stage j = .closed slot n := hj
    have hlt := (h.opened j slot n (by rw [hstage]; rfl)).1
    show Function.update s.data s.next [] n = _
    rw [Function.update_of_ne (Nat.ne_of_lt hlt)]
    exact h.closed j slot n hj

theorem Kept.put (h : Kept jobs side s) {content : List β}
    (hdata : ∀ j slot, s.stage j = .closed slot n → content = (jobs j).content) :
    Kept jobs side (s.put n content) := by
  refine ⟨h.linked, h.single, h.reserved, h.present, h.exclusive, h.opened, h.apart,
    fun j slot k hj => ?_, h.routed⟩
  show Function.update s.data n content k = _
  by_cases hk : k = n
  · subst hk
    rw [Function.update_self]
    exact hdata j slot hj
  · rw [Function.update_of_ne hk]
    exact h.closed j slot k hj

theorem Kept.unlink (h : Kept jobs side s) (hfree : ∀ j, (s.stage j).held ≠ some name) :
    Kept jobs side (s.unlink name) := by
  have hnames : ∀ a, (s.unlink name).names a = if a = name then none else s.names a :=
    Function.update_apply s.names name _
  have hold : ∀ a n, (s.unlink name).names a = some n → s.names a = some n := by
    intro a n ha
    rw [hnames] at ha
    split at ha
    next => cases ha
    next => exact ha
  refine ⟨fun a n ha => h.linked a n (hold a n ha), fun a b n hside ha hb =>
    h.single a b n hside (hold a n ha) (hold b n hb), h.reserved, fun j slot hj => ?_, h.exclusive,
    fun j slot n hj => ?_, h.apart, h.closed, h.routed⟩
  · have hne : slot ≠ name := by
      rintro rfl
      exact hfree j hj
    rw [hnames, if_neg hne]
    exact h.present j slot hj
  · obtain ⟨hlt, hname, honly⟩ := h.opened j slot n hj
    exact ⟨hlt, fun m hm => hname m (hold _ m hm), fun a ha => honly a (hold a n ha)⟩

theorem Kept.rename (h : Kept jobs side s) (happart : Apart jobs side) (hside : side name)
    (hdest : ¬ side dest) (hfree : ∀ j, (s.stage j).held ≠ some name)
    (hopen : ∀ j slot n, (s.stage j).opened = some (slot, n) → (jobs j).route slot ≠ name) :
    Kept jobs side (s.rename name dest) := by
  have hnames : ∀ a, (s.rename name dest).names a =
      if a = name then none else if a = dest then s.names name else s.names a := by
    intro a
    show Function.update (Function.update s.names dest _) name none a = _
    rw [Function.update_apply, Function.update_apply]
  have hold : ∀ a, side a → a ≠ name → (s.rename name dest).names a = s.names a := by
    intro a hside hne
    have hdest' : a ≠ dest := by
      rintro rfl
      exact hdest hside
    rw [hnames, if_neg hne, if_neg hdest']
  have hfrom : ∀ a n, (s.rename name dest).names a = some n → a ≠ name ∧
      (s.names a = some n ∨ s.names name = some n) := by
    intro a n ha
    rw [hnames] at ha
    split at ha
    next => cases ha
    next hne =>
      split at ha
      next => exact ⟨hne, .inr ha⟩
      next => exact ⟨hne, .inl ha⟩
  refine ⟨fun a n ha => ?_, fun a b n hsidea ha hb => ?_, h.reserved, fun j slot hj => ?_,
    h.exclusive, fun j slot n hj => ?_, h.apart, h.closed, h.routed⟩
  · rcases (hfrom a n ha).2 with ha' | ha'
    · exact h.linked a n ha'
    · exact h.linked name n ha'
  · have hne := (hfrom a n ha).1
    rw [hold a hsidea hne] at ha
    rcases (hfrom b n hb).2 with hb' | hb'
    · exact h.single a b n hsidea ha hb'
    · exact absurd (h.single a name n hsidea ha hb') hne
  · have hne : slot ≠ name := by
      rintro rfl
      exact hfree j hj
    rw [hold slot (happart.temp_side j slot (h.reserved j slot hj)) hne]
    exact h.present j slot hj
  · obtain ⟨hlt, hname, honly⟩ := h.opened j slot n hj
    have hroute : side ((jobs j).route slot) :=
      happart.route_side j slot (h.reserved j slot (held_of_opened hj))
    refine ⟨hlt, fun m hm => ?_, fun a ha => ?_⟩
    · rw [hold _ hroute (hopen j slot n hj)] at hm
      exact hname m hm
    · rcases (hfrom a n ha).2 with ha' | ha'
      · exact honly a ha'
      · exact absurd (honly name ha').symm (hopen j slot n hj)

end Operations

section Steps

/-- No other writer has a file open under the name that follows from a name of one's own. -/
theorem Kept.route_ne (h : Kept jobs side s) (happart : Apart jobs side) {slot : ν}
    (hi : (s.stage i).held = some slot) (j : ι) (hji : j ≠ i) (slot' : ν) (n : ℕ)
    (hj : (s.stage j).opened = some (slot', n)) : (jobs j).route slot' ≠ (jobs i).route slot := by
  intro heq
  have hheld := held_of_opened hj
  have hslot : slot' = slot :=
    happart.route_injective j i slot' slot (h.reserved j slot' hheld) (h.reserved i slot hi) heq
  subst hslot
  exact hji (h.exclusive j i slot' hheld hi)

theorem Kept.reserve (h : Kept jobs side s) (happart : Apart jobs side) {slot : ν}
    (htemp : (jobs i).temp slot) (hfree : s.names slot = none) :
    Kept jobs side ((s.create slot).setStage i (.reserved slot)) := by
  have hcreate : Kept jobs side (s.create slot) := by
    apply h.create
    intro j slot' n hj hroute
    have hheld := held_of_opened hj
    have heq := happart.route_temp j i slot' slot (h.reserved j slot' hheld) htemp hroute
    subst heq
    exact h.present j slot' hheld hfree
  refine hcreate.setStage _ (fun slot' hslot => ?_) (fun _ _ hst => by cases hst)
    (fun _ _ hst => by cases hst) (fun _ _ hst => by cases hst)
  cases hslot
  refine ⟨htemp, ?_, fun j _ hj => h.present j slot hj hfree⟩
  show Function.update s.names slot (some s.next) slot ≠ none
  rw [Function.update_self]
  exact Option.some_ne_none _

theorem Kept.openNew (h : Kept jobs side s) (happart : Apart jobs side) {slot : ν}
    (hstage : s.stage i = .reserved slot) :
    Kept jobs side ((s.create ((jobs i).route slot)).setStage i (.writing slot s.next)) := by
  have hi : (s.stage i).held = some slot := by
    rw [hstage]
    rfl
  have hcreate : Kept jobs side (s.create ((jobs i).route slot)) := by
    apply h.create
    intro j slot' n hj
    have hji : j ≠ i := by
      rintro rfl
      rw [hstage] at hj
      cases hj
    exact h.route_ne happart hi j hji slot' n hj
  have hnames : ∀ a, (s.create ((jobs i).route slot)).names a =
      if a = (jobs i).route slot then some s.next else s.names a :=
    Function.update_apply s.names _ _
  refine hcreate.setStage _ (fun slot' hslot => ?_) (fun slot' n hslot => ?_)
    (fun _ _ hst => by cases hst) (fun _ _ hst => by cases hst)
  · cases hslot
    exact ⟨h.reserved i slot hi, hcreate.present i slot hi, fun j hji hj =>
      hji (h.exclusive j i slot hj hi)⟩
  · cases hslot
    refine ⟨Nat.lt_succ_self _, fun m hm => ?_, fun a ha => ?_, fun j slot' _ hj => ?_⟩
    · rw [hnames, if_pos rfl] at hm
      cases hm
      rfl
    · rw [hnames] at ha
      split at ha
      next heq => exact heq
      next => exact absurd (h.linked a _ ha) (Nat.lt_irrefl _)
    · exact Nat.lt_irrefl _ (h.opened j slot' _ hj).1

theorem Kept.openFound (h : Kept jobs side s) (happart : Apart jobs side) {slot : ν}
    (hstage : s.stage i = .reserved slot) (hsome : s.names ((jobs i).route slot) = some n) :
    Kept jobs side ((s.put n []).setStage i (.writing slot n)) := by
  have hi : (s.stage i).held = some slot := by
    rw [hstage]
    rfl
  have hroute : side ((jobs i).route slot) := happart.route_side i slot (h.reserved i slot hi)
  have hfile : ∀ j slot', (s.stage j).opened ≠ some (slot', n) := by
    intro j slot' hj
    have hji : j ≠ i := by
      rintro rfl
      rw [hstage] at hj
      cases hj
    exact h.route_ne happart hi j hji slot' n hj ((h.opened j slot' n hj).2.2 _ hsome).symm
  have hput : Kept jobs side (s.put n []) := by
    apply h.put
    intro j slot' hj
    refine absurd ?_ (hfile j slot')
    rw [hj]
    rfl
  refine hput.setStage _ (fun slot' hslot => ?_) (fun slot' m hslot => ?_)
    (fun _ _ hst => by cases hst) (fun _ _ hst => by cases hst)
  · cases hslot
    exact ⟨h.reserved i slot hi, h.present i slot hi, fun j hji hj =>
      hji (h.exclusive j i slot hj hi)⟩
  · cases hslot
    refine ⟨h.linked _ n hsome, fun m hm => ?_, fun a ha => ?_, fun j slot' _ => hfile j slot'⟩
    · exact Option.some.inj (hm.symm.trans hsome)
    · exact (h.single _ a n hroute hsome ha).symm

theorem Kept.write (h : Kept jobs side s) {slot : ν} (hstage : s.stage i = .writing slot n)
    (front : List β) : Kept jobs side (s.put n front) := by
  apply h.put
  intro j slot' hj
  exfalso
  have hji : j = i := h.apart j i slot' slot n (by rw [hj]; rfl) (by rw [hstage]; rfl)
  rw [hji, hstage] at hj
  cases hj

theorem Kept.close (h : Kept jobs side s) {slot : ν} (hstage : s.stage i = .writing slot n) :
    Kept jobs side ((s.put n (jobs i).content).setStage i (.closed slot n)) := by
  have hi : (s.stage i).opened = some (slot, n) := by
    rw [hstage]
    rfl
  have hheld := held_of_opened hi
  have hput : Kept jobs side (s.put n (jobs i).content) := by
    apply h.put
    intro j slot' hj
    have hji : j = i := h.apart j i slot' slot n (by rw [hj]; rfl) hi
    rw [hji]
  refine hput.setStage _ (fun slot' hslot => ?_) (fun slot' m hslot => ?_)
    (fun slot' m hst => ?_) (fun _ _ hst => by cases hst)
  · cases hslot
    exact ⟨h.reserved i slot hheld, h.present i slot hheld, fun j hji hj =>
      hji (h.exclusive j i slot hj hheld)⟩
  · cases hslot
    obtain ⟨hlt, hname, honly⟩ := h.opened i slot n hi
    exact ⟨hlt, hname, honly, fun j slot' hji hj => hji (h.apart j i slot' slot n hj hi)⟩
  · cases hst
    exact Function.update_self ..

theorem Kept.replace (h : Kept jobs side s) (happart : Apart jobs side) {slot : ν}
    (hstage : s.stage i = .closed slot n) :
    Kept jobs side ((s.rename ((jobs i).route slot) (jobs i).dest).setStage i
      (.cleaning (if (jobs i).route slot = slot then none else some slot) none)) := by
  have hi : (s.stage i).opened = some (slot, n) := by
    rw [hstage]
    rfl
  have hheld := held_of_opened hi
  have htemp := h.reserved i slot hheld
  -- the writer leaves first: nobody has the renamed file open then
  have hleave : Kept jobs side
      (s.setStage i (.cleaning (if (jobs i).route slot = slot then none else some slot) none)) := by
    refine h.leave _ (fun slot' hslot => ?_) rfl (fun _ _ hst => by cases hst)
    simp only [Stage.held] at hslot
    split at hslot
    next => cases hslot
    next => exact hslot ▸ hheld
  refine hleave.rename happart (happart.route_side i slot htemp) (happart.dest i) ?_ ?_
  · intro j hj
    rw [stage_setStage] at hj
    split at hj
    next =>
      simp only [Stage.held] at hj
      split at hj
      next => cases hj
      next hne => exact hne (Option.some.inj hj).symm
    next hji =>
      have heq := happart.route_temp i j slot _ htemp (h.reserved j _ hj) rfl
      rw [← heq] at hj
      exact hji (h.exclusive j i slot hj hheld)
  · intro j slot' k hj
    rw [stage_setStage] at hj
    split at hj
    next => cases hj
    next hji => exact h.route_ne happart hheld j hji slot' k hj

theorem Kept.fail (h : Kept jobs side s) (happart : Apart jobs side) {slot : ν}
    (hi : (s.stage i).held = some slot) : Kept jobs side (s.setStage i (.cleaning (some slot)
      (if (jobs i).route slot = slot then none else some ((jobs i).route slot)))) := by
  have htemp := h.reserved i slot hi
  refine h.leave _ (fun slot' hslot => hslot ▸ hi) rfl (fun slot' name hst => ?_)
  simp only [Stage.cleaning.injEq] at hst
  obtain ⟨_, hname⟩ := hst
  split at hname
  next => cases hname
  next hne =>
    cases hname
    exact ⟨happart.route_side i slot htemp, fun j hj =>
      hne (happart.route_temp i j slot _ htemp hj rfl).symm⟩

theorem Kept.unlinkSlot (h : Kept jobs side s) {slot : ν} {routed : Option ν}
    (hstage : s.stage i = .cleaning (some slot) routed) :
    Kept jobs side ((s.unlink slot).setStage i (.cleaning none routed)) := by
  have hi : (s.stage i).held = some slot := by
    rw [hstage]
    rfl
  have hleave : Kept jobs side (s.setStage i (.cleaning none routed)) := by
    refine h.leave _ (fun _ hst => by cases hst) rfl (fun slot' name hst => ?_)
    cases hst
    exact h.routed i _ _ hstage
  apply hleave.unlink
  intro j hj
  rw [stage_setStage] at hj
  split at hj
  next => cases hj
  next hji => exact hji (h.exclusive j i slot hj hi)

theorem Kept.unlinkRouted (h : Kept jobs side s) {routed : ν}
    (hstage : s.stage i = .cleaning none (some routed)) :
    Kept jobs side ((s.unlink routed).setStage i (.cleaning none none)) := by
  have hleave : Kept jobs side (s.setStage i (.cleaning none none)) :=
    h.leave _ (fun _ hst => by cases hst) rfl (fun _ _ hst => by cases hst)
  apply hleave.unlink
  intro j hj
  rw [stage_setStage] at hj
  split at hj
  next => cases hj
  next => exact (h.routed i _ _ hstage).2 j (h.reserved j _ hj)

/-- Whoever takes a step, the names and the open files of the writers stay apart. -/
theorem Kept.step (h : Kept jobs side s) (happart : Apart jobs side)
    (hstep : Step jobs mayCrash s label t) : Kept jobs side t := by
  cases hstep with
  | reserve i slot hidle htemp hfree => exact h.reserve happart htemp hfree
  | create i slot hstage hnone => exact h.openNew happart hstage
  | truncate i slot n hstage hsome => exact h.openFound happart hstage hsome
  | write i slot n front hstage hfront => exact h.write hstage front
  | close i slot n hstage => exact h.close hstage
  | replace i slot n m hstage hsome => exact h.replace happart hstage
  | fail i slot hstage =>
    apply h.fail happart
    rcases hstage with hstage | ⟨n, hstage | hstage⟩ <;> rw [hstage] <;> rfl
  | unlinkSlot i slot routed hstage => exact h.unlinkSlot hstage
  | unlinkRouted i routed hstage => exact h.unlinkRouted hstage
  | crash i hcrash =>
    exact h.leave _ (fun _ hst => by cases hst) rfl (fun _ _ hst => by cases hst)

end Steps

section Contents

theorem contentAt_create (h : Kept jobs side s) (hne : dest ≠ name) :
    (s.create name).contentAt dest = s.contentAt dest := by
  show (Function.update s.names name _ dest).map (Function.update s.data s.next []) = _
  rw [Function.update_of_ne hne, State.contentAt]
  cases hdest : s.names dest with
  | none => rfl
  | some n =>
    have hlt := h.linked dest n hdest
    exact congrArg some (Function.update_of_ne (Nat.ne_of_lt hlt) ..)

theorem contentAt_put {content : List β} (hne : s.names dest ≠ some n) :
    (s.put n content).contentAt dest = s.contentAt dest := by
  show (s.names dest).map (Function.update s.data n content) = (s.names dest).map s.data
  cases hdest : s.names dest with
  | none => rfl
  | some m =>
    have hm : m ≠ n := by
      rintro rfl
      exact hne hdest
    exact congrArg some (Function.update_of_ne hm ..)

theorem contentAt_unlink (hne : dest ≠ name) :
    (s.unlink name).contentAt dest = s.contentAt dest := by
  show (Function.update s.names name none dest).map s.data = _
  rw [Function.update_of_ne hne]
  rfl

theorem contentAt_rename {d : ν} (hne : d ≠ name) : (s.rename name dest).contentAt d =
    if d = dest then s.contentAt name else s.contentAt d := by
  show (Function.update (Function.update s.names dest _) name none d).map s.data = _
  rw [Function.update_of_ne hne, Function.update_apply]
  split <;> rfl

/-- An open file is read under no other name than that of its writer. -/
theorem Kept.names_ne (h : Kept jobs side s) (happart : Apart jobs side) {slot d : ν}
    (hi : (s.stage i).opened = some (slot, n)) (hd : ¬ side d) : s.names d ≠ some n := by
  intro hname
  apply hd
  rw [(h.opened i slot n hi).2.2 d hname]
  exact happart.route_side i slot (h.reserved i slot (held_of_opened hi))

/-- A destination changes with a rename to it only, and then it holds all of the new content. -/
theorem Kept.contents (h : Kept jobs side s) (happart : Apart jobs side)
    (hstep : Step jobs mayCrash s label t) {d : ν} (hd : ¬ side d) :
    t.contentAt d = label.toList.foldl (written jobs) s.contentAt d := by
  have hne : ∀ name, side name → d ≠ name := by
    rintro name hside rfl
    exact hd hside
  cases hstep with
  | reserve i slot hidle htemp hfree =>
    exact contentAt_create h (hne slot (happart.temp_side i slot htemp))
  | create i slot hstage hnone =>
    have htemp := h.reserved i slot (by rw [hstage]; rfl)
    exact contentAt_create h (hne _ (happart.route_side i slot htemp))
  | truncate i slot n hstage hsome =>
    have htemp := h.reserved i slot (by rw [hstage]; rfl)
    have hroute := happart.route_side i slot htemp
    exact contentAt_put fun hname => hne _ hroute (h.single _ d n hroute hsome hname).symm
  | write i slot n front hstage hfront =>
    exact contentAt_put (h.names_ne happart (by rw [hstage]; rfl) hd)
  | close i slot n hstage =>
    exact contentAt_put (h.names_ne happart (by rw [hstage]; rfl) hd)
  | replace i slot n m hstage hsome =>
    have hi : (s.stage i).opened = some (slot, n) := by
      rw [hstage]
      rfl
    have hroute := happart.route_side i slot (h.reserved i slot (held_of_opened hi))
    obtain rfl := (h.opened i slot n hi).2.1 m hsome
    have hcontent : s.contentAt ((jobs i).route slot) = some (jobs i).content := by
      rw [State.contentAt, hsome, Option.map_some, h.closed i slot m hstage]
    refine (contentAt_rename (hne _ hroute)).trans ?_
    rw [hcontent]
    exact (Function.update_apply s.contentAt _ _ d).symm
  | fail i slot hstage => rfl
  | unlinkSlot i slot routed hstage =>
    have htemp := h.reserved i slot (by rw [hstage]; rfl)
    exact contentAt_unlink (hne slot (happart.temp_side i slot htemp))
  | unlinkRouted i routed hstage =>
    exact contentAt_unlink (hne routed (h.routed i _ _ hstage).1)
  | crash i hcrash => rfl

theorem foldl_written_congr {store store' : ν → Option (List β)} {d : ν}
    (h : store d = store' d) (renames : List ι) :
    renames.foldl (written jobs) store d = renames.foldl (written jobs) store' d := by
  induction renames generalizing store store' with
  | nil => exact h
  | cons i renames ih =>
    apply ih
    unfold written
    rw [Function.update_apply, Function.update_apply, h]

end Contents

section Cleanliness

theorem Clean.move (h : Clean jobs side left s) (st : Stage ν)
    (hstage : t.stage = Function.update s.stage i st)
    (hnames : ∀ name, side name → t.names name ≠ none → st.owns (jobs i) name ∨
      s.names name ≠ none ∧ ¬ (s.stage i).owns (jobs i) name) : Clean jobs side left t := by
  intro name hside hname
  rcases hnames name hside hname with howns | ⟨hold, hnot⟩
  · refine .inr ⟨i, ?_⟩
    rw [hstage, Function.update_self]
    exact howns
  · rcases h name hside hold with hleft | ⟨j, hj⟩
    · exact .inl hleft
    · have hji : j ≠ i := by
        rintro rfl
        exact hnot hj
      refine .inr ⟨j, ?_⟩
      rw [hstage, Function.update_of_ne hji]
      exact hj

/-- Every step but a crash leaves what it has made to a writer that will remove it. -/
theorem Clean.step (h : Clean jobs side left s) (happart : Apart jobs side) (hcrash : ¬ mayCrash)
    (hstep : Step jobs mayCrash s label t) : Clean jobs side left t := by
  cases hstep with
  | reserve i slot hidle htemp hfree =>
    refine h.move _ rfl fun name hside hname => ?_
    by_cases heq : name = slot
    · exact .inl heq.symm
    · refine .inr ⟨?_, ?_⟩
      · rwa [show ((s.create slot).setStage i _).names name = s.names name from
          Function.update_of_ne heq ..] at hname
      · rw [hidle]
        exact id
  | create i slot hstage hnone =>
    refine h.move _ rfl fun name hside hname => ?_
    by_cases heq : name = (jobs i).route slot
    · exact .inl (.inr heq.symm)
    · by_cases hslot : slot = name
      · exact .inl (.inl hslot)
      · refine .inr ⟨?_, ?_⟩
        · rwa [show ((s.create _).setStage i _).names name = s.names name from
            Function.update_of_ne heq ..] at hname
        · rw [hstage]
          exact hslot
  | truncate i slot n hstage hsome =>
    refine h.move _ rfl fun name hside hname => ?_
    by_cases hslot : slot = name
    · exact .inl (.inl hslot)
    · refine .inr ⟨hname, ?_⟩
      rw [hstage]
      exact hslot
  | write i slot n front hstage hfront => exact h
  | close i slot n hstage =>
    refine h.move _ rfl fun name hside hname => ?_
    by_cases howns : slot = name ∨ (jobs i).route slot = name
    · exact .inl howns
    · refine .inr ⟨hname, ?_⟩
      rw [hstage]
      exact howns
  | replace i slot n m hstage hsome =>
    refine h.move _ rfl fun name hside hname => ?_
    have hroute : name ≠ (jobs i).route slot := by
      rintro rfl
      exact hname (Function.update_self ..)
    have hdest : name ≠ (jobs i).dest := by
      rintro rfl
      exact happart.dest i hside
    have hold : ((s.rename ((jobs i).route slot) (jobs i).dest).setStage i (.cleaning
        (if (jobs i).route slot = slot then none else some slot) none)).names name =
        s.names name :=
      (Function.update_of_ne hroute ..).trans (Function.update_of_ne hdest ..)
    by_cases hslot : slot = name
    · subst hslot
      refine .inl (.inl ?_)
      rw [if_neg hroute.symm]
    · refine .inr ⟨hold ▸ hname, ?_⟩
      rw [hstage]
      rintro (heq | heq)
      · exact hslot heq
      · exact hroute heq.symm
  | fail i slot hstage =>
    refine h.move _ rfl fun name hside hname => ?_
    by_cases howns : slot = name ∨ (jobs i).route slot = name
    · refine .inl ?_
      by_cases hslot : slot = name
      · exact .inl (congrArg some hslot)
      · have hroute := howns.resolve_left hslot
        refine .inr ?_
        rw [if_neg fun heq => hslot (heq.symm.trans hroute), hroute]
    · refine .inr ⟨hname, ?_⟩
      rcases hstage with hstage | ⟨n, hstage | hstage⟩ <;> rw [hstage]
      · exact fun heq => howns (.inl heq)
      · exact howns
      · exact howns
  | unlinkSlot i slot routed hstage =>
    refine h.move _ rfl fun name hside hname => ?_
    have hslot : name ≠ slot := by
      rintro rfl
      exact hname (Function.update_self ..)
    by_cases hrouted : routed = some name
    · exact .inl (.inr hrouted)
    · refine .inr ⟨?_, ?_⟩
      · rwa [show ((s.unlink slot).setStage i _).names name = s.names name from
          Function.update_of_ne hslot ..] at hname
      · rw [hstage]
        rintro (heq | heq)
        · exact hslot (Option.some.inj heq).symm
        · exact hrouted heq
  | unlinkRouted i routed hstage =>
    refine h.move _ rfl fun name hside hname => ?_
    have hrouted : name ≠ routed := by
      rintro rfl
      exact hname (Function.update_self ..)
    refine .inr ⟨?_, ?_⟩
    · rwa [show ((s.unlink routed).setStage i _).names name = s.names name from
        Function.update_of_ne hrouted ..] at hname
    · rw [hstage]
      rintro (heq | heq)
      · cases heq
      · exact hrouted (Option.some.inj heq).symm
  | crash i hcrash' => exact absurd hcrash' hcrash

end Cleanliness

section Runs

theorem Ready.kept (h : Ready side s) : Kept jobs side s where
  linked := h.linked
  single := h.single
  reserved i slot hi := by
    rw [h.idle i] at hi
    cases hi
  present i slot hi := by
    rw [h.idle i] at hi
    cases hi
  exclusive i j slot hi := by
    rw [h.idle i] at hi
    cases hi
  opened i slot n hi := by
    rw [h.idle i] at hi
    cases hi
  apart i j slot slot' n hi := by
    rw [h.idle i] at hi
    cases hi
  closed i slot n hi := by
    rw [h.idle i] at hi
    cases hi
  routed i slot name hi := by
    rw [h.idle i] at hi
    cases hi

theorem Run.kept (hrun : Run jobs mayCrash s renames t) (happart : Apart jobs side)
    (hready : Ready side s) : Kept jobs side t := by
  induction hrun with
  | start => exact hready.kept
  | step hrun hstep ih => exact ih.step happart hstep

/-- In any order of steps, with failures and crashes anywhere, the destinations hold what the
renames alone make of them. -/
theorem Run.contents (hrun : Run jobs mayCrash s renames t) (happart : Apart jobs side)
    (hready : Ready side s) {d : ν} (hd : ¬ side d) :
    t.contentAt d = renames.foldl (written jobs) s.contentAt d := by
  induction hrun with
  | start => rfl
  | step hrun hstep ih =>
    rw [(hrun.kept happart hready).contents happart hstep hd, List.foldl_append]
    exact foldl_written_congr ih _

/-- Without a crash, writers that are done leave no temporary name behind. -/
theorem Run.clean (hrun : Run jobs mayCrash s renames t) (happart : Apart jobs side)
    (hcrash : ¬ mayCrash) (hended : ∀ i, (t.stage i).ended) (hside : side name)
    (hname : t.names name ≠ none) : s.names name ≠ none := by
  have hclean : Clean jobs side (fun name => s.names name ≠ none) t := by
    clear hended hname
    induction hrun with
    | start => exact fun _ _ hname => .inl hname
    | step hrun hstep ih => exact ih.step happart hcrash hstep
  rcases hclean name hside hname with hleft | ⟨i, howns⟩
  · exact hleft
  · exfalso
    have hi := hended i
    cases hstage : t.stage i with
    | cleaning slot routed =>
      rw [hstage] at hi howns
      cases slot with
      | some _ => exact hi
      | none =>
        cases routed with
        | some _ => exact hi
        | none => rcases howns with heq | heq <;> cases heq
    | idle => rwa [hstage] at howns
    | reserved => rwa [hstage] at hi
    | writing => rwa [hstage] at hi
    | closed => rwa [hstage] at hi
    | crashed => rwa [hstage] at hi

end Runs

end AtomicReplace
