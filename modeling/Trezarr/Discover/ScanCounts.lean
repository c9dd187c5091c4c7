import Mathlib.Algebra.GroupWithZero.Nat
import Trezarr.Discover.Poll
import Trezarr.Discover.Select
import Trezarr.Output.Ledger

/-! The counters of a scan, and the reasons that its items are skipped for. -/
namespace Trezarr
open Text Fallible LedgerProtocol

/-- The counters for items that are not reported. -/
inductive Counter
  | noSource
  | foreignVi
  | alreadyDone
  | error
  deriving DecidableEq, Repr

def ScanStats.get (stats : ScanStats) : Counter → ℕ
  | .noSource => stats.noSource
  | .foreignVi => stats.foreignVi
  | .alreadyDone => stats.alreadyDone
  | .error => stats.error

/-- The counter of the case that rejects the item. -/
def Scanned.skippedAs : Scanned → Option Counter
  | noSource => some .noSource
  | judged _ _ verdict => match verdict with
    | .noSource _ => some .noSource
    | .foreignSidecar _ => some .foreignVi
    | .unchanged => some .alreadyDone
    | .unreadable _ => some .error
    | .richerSource | .changed | .retry | .resume | .newItem => none

section Counts

variable {L : Type} [LedgerProtocol L] (contentHash : Bytes → Str) (disk : Disk) (ledger : L)
  (langPriority : List Str)

def skippedAs (item : MediaItem) : Option Counter :=
  (scanItem contentHash disk ledger langPriority item).toOption.bind Scanned.skippedAs

/-- The items scanned are the ones reported and those of the four counters, each of which counts
the items that its own case rejects. -/
structure CountedByCase (items : List MediaItem) (eligible : List EligibleItem)
    (stats : ScanStats) : Prop where
  sum : stats.scanned =
    eligible.length + stats.noSource + stats.foreignVi + stats.alreadyDone + stats.error
  cases : ∀ c, stats.get c =
    items.countP fun item => skippedAs contentHash disk ledger langPriority item = some c

/-- Words of other reasons that are looked for first. -/
def otherReasons : List Str := ["foreign", "already translated", "richer source"]

/-- Neither the path of a source that is gone nor the error of one that cannot be read has the words
of another reason in it. -/
structure PlainTexts (path : Path) : Prop where
  missing : disk.exists? path = false → ∀ word ∈ otherReasons, ¬ word <:+: lower path.str
  unreadable : ∀ entry exc, disk.exists? path = true → check ledger path.str = .ok (some entry) →
    entry.status = .done → disk.exists? (deriveViSidecarPath disk.toFileSystem path) = true →
    disk.readBytes path = .error exc →
    ∀ word ∈ ("no source" : Str) :: otherReasons, ¬ word <:+: lower exc.text

end Counts

section Reasons

variable {stats : ScanStats} {r : Scanned} {path : Path} {exc : OSError} {word : Str}

/-- What is counted for another case than its own. -/
def Scanned.Misread : Scanned → Prop
  | noSource => False
  | judged _ _ verdict => match verdict with
    | .noSource path => ∃ word ∈ otherReasons, word <:+: lower path.str
    | .unreadable exc => ∃ word ∈ ("no source" : Str) :: otherReasons, word <:+: lower exc.text
    | _ => False

/-- The words are plain, and start nowhere in the words of a reason. -/
theorem words_apart {words : List Str} {a s word : Str}
    (h : (words.all fun w => (w.all fun c => c != 'σ' && c != 'ς') && apart w a) = true)
    (ha : (a.all fun c => decide (IsLower c)) = true) (hword : word ∈ words) :
    word <:+: lower (a ++ s) ↔ word <:+: lower s := by
  have hw := List.all_eq_true.mp h word hword
  rw [Bool.and_eq_true] at hw
  apply infix_lower_append
  · intro c hc
    simpa using List.all_eq_true.mp hw.1 c hc
  · exact fun c hc => of_decide_eq_true (List.all_eq_true.mp ha c hc)
  · exact hw.2

theorem infix_reason_noSource (hword : word ∈ otherReasons) :
    word <:+: lower (Eligibility.noSource path).reason ↔ word <:+: lower path.str :=
  words_apart (by decide +kernel) (by decide +kernel) hword

theorem infix_reason_unreadable (hword : word ∈ ("no source" : Str) :: otherReasons) :
    word <:+: lower (Eligibility.unreadable exc).reason ↔ word <:+: lower exc.text :=
  words_apart (by decide +kernel) (by decide +kernel) hword

theorem infix_lower_of_part {a b s : Str} (h : ((a ++ word).all fun c => decide (IsLower c)) = true)
    (hb : b = a ++ word ++ s) : word <:+: lower b := by
  have hlower : lower (a ++ word ++ s) = a ++ word ++ lowerFrom ((a ++ word).reverse ++ []) s :=
    lowerFrom_append fun c hc => of_decide_eq_true (List.all_eq_true.mp h c hc)
  rw [hb, hlower]
  exact List.infix_append a word _

theorem foreign_infix_reason :
    ("foreign" : Str) <:+: lower (Eligibility.foreignSidecar path).reason :=
  infix_lower_of_part (a := []) (by decide +kernel) (List.append_assoc _ _ _)

theorem noSource_infix_reason : ("no source" : Str) <:+: lower (Eligibility.noSource path).reason :=
  infix_lower_of_part (a := []) (by decide +kernel) rfl

theorem unreadable_infix_reason :
    ("unreadable" : Str) <:+: lower (Eligibility.unreadable exc).reason :=
  infix_lower_of_part (a := "source subtitle ") (by decide +kernel) rfl

/-- The words of the reasons, in the order they are looked for. -/
theorem count_rejected {p : Path} {lang : Str} {verdict : Eligibility}
    (h : verdict.eligible = false) : (Scanned.judged p lang verdict).count stats =
      if ("foreign" : Str) <:+: lower verdict.reason then
        { stats with foreignVi := stats.foreignVi + 1 }
      else if ("already translated" : Str) <:+: lower verdict.reason then
        { stats with alreadyDone := stats.alreadyDone + 1 }
      else if ("richer source" : Str) <:+: lower verdict.reason then
        { stats with sourceUpgraded := stats.sourceUpgraded + 1 }
      else if ("no source" : Str) <:+: lower verdict.reason then
        { stats with noSource := stats.noSource + 1 }
      else if ("unreadable" : Str) <:+: lower verdict.reason then
        { stats with error := stats.error + 1 }
      else stats := by
  unfold Scanned.count
  dsimp only
  rw [if_neg (by rw [h]; exact Bool.false_ne_true)]

theorem get_count_accepted {p : Path} {lang : Str} {verdict : Eligibility}
    (h : verdict.eligible = true) (c : Counter) :
    ((Scanned.judged p lang verdict).count stats).get c = stats.get c := by
  unfold Scanned.count
  dsimp only
  rw [if_pos h]
  split
  · cases c <;> rfl
  · rfl

/-- An item that is not misread is counted for its case. -/
theorem get_count (h : ¬ r.Misread) (c : Counter) :
    (r.count stats).get c = stats.get c + if r.skippedAs = some c then 1 else 0 := by
  cases r with
  | noSource => cases c <;> rfl
  | judged p lang verdict =>
    cases verdict with
    | noSource path =>
      have hnot : ∀ word ∈ otherReasons, ¬ word <:+: lower (Eligibility.noSource path).reason :=
        fun word hword hin => h ⟨word, hword, (infix_reason_noSource hword).mp hin⟩
      rw [count_rejected rfl, if_neg (hnot _ (by decide)), if_neg (hnot _ (by decide)),
        if_neg (hnot _ (by decide)), if_pos noSource_infix_reason]
      cases c <;> rfl
    | foreignSidecar viPath =>
      rw [count_rejected rfl, if_pos foreign_infix_reason]
      cases c <;> rfl
    | unreadable exc =>
      have hnot : ∀ word ∈ ("no source" : Str) :: otherReasons,
          ¬ word <:+: lower (Eligibility.unreadable exc).reason :=
        fun word hword hin => h ⟨word, hword, (infix_reason_unreadable hword).mp hin⟩
      rw [count_rejected rfl, if_neg (hnot _ (by decide)), if_neg (hnot _ (by decide)),
        if_neg (hnot _ (by decide)), if_neg (hnot _ (by decide)), if_pos unreadable_infix_reason]
      cases c <;> rfl
    | unchanged =>
      have hforeign : ¬ ("foreign" : Str) <:+: lower Eligibility.unchanged.reason := by
        decide +kernel
      have hdone : ("already translated" : Str) <:+: lower Eligibility.unchanged.reason := by
        decide +kernel
      rw [count_rejected rfl, if_neg hforeign, if_pos hdone]
      cases c <;> rfl
    | richerSource | changed | retry | resume | newItem => exact get_count_accepted rfl c

theorem scanned_foldl_count (rs : List Scanned) :
    (rs.foldl (fun stats r => r.count stats) stats).scanned = stats.scanned := by
  induction rs generalizing stats with
  | nil => rfl
  | cons r rs ih =>
    rw [List.foldl_cons, ih]
    cases r with
    | noSource => rfl
    | judged path lang verdict =>
      simp only [Scanned.count]
      split_ifs <;> rfl

/-- Two for what cannot be read, one for what has no source. -/
def Scanned.weight (r : Scanned) : ℕ :=
  if r.skippedAs = some .error then 2 else if r.skippedAs = some .noSource then 1 else 0

def ScanStats.weight (stats : ScanStats) : ℕ := stats.noSource + 2 * stats.error

/-- What is misread is counted for less than its weight. -/
theorem weight_count_lt (h : r.Misread) :
    (r.count stats).weight < stats.weight + r.weight := by
  cases r with
  | noSource => exact h.elim
  | judged p lang verdict =>
    cases verdict with
    | noSource path =>
      obtain ⟨word, hword, hin⟩ := h
      rw [← infix_reason_noSource hword] at hin
      have hweight : (Scanned.judged p lang (.noSource path)).weight = 1 := rfl
      rw [count_rejected rfl, hweight]
      split
      next => exact Nat.lt_succ_self stats.weight
      next hforeign =>
        split
        next => exact Nat.lt_succ_self stats.weight
        next hdone =>
          split
          next => exact Nat.lt_succ_self stats.weight
          next hricher =>
            simp only [otherReasons, List.mem_cons, List.not_mem_nil, or_false] at hword
            rcases hword with rfl | rfl | rfl
            · exact absurd hin hforeign
            · exact absurd hin hdone
            · exact absurd hin hricher
    | unreadable exc =>
      obtain ⟨word, hword, hin⟩ := h
      rw [← infix_reason_unreadable hword] at hin
      have hweight : (Scanned.judged p lang (.unreadable exc)).weight = 2 := rfl
      have hless : stats.weight < stats.weight + 2 := by omega
      rw [count_rejected rfl, hweight]
      split
      next => exact hless
      next hforeign =>
        split
        next => exact hless
        next hdone =>
          split
          next => exact hless
          next hricher =>
            split
            next =>
              show stats.noSource + 1 + 2 * stats.error < stats.weight + 2
              unfold ScanStats.weight
              omega
            next hsource =>
              simp only [otherReasons, List.mem_cons, List.not_mem_nil, or_false] at hword
              rcases hword with rfl | rfl | rfl | rfl
              · exact absurd hin hsource
              · exact absurd hin hforeign
              · exact absurd hin hdone
              · exact absurd hin hricher
    | foreignSidecar viPath | unchanged | richerSource | changed | retry | resume | newItem =>
      exact h.elim

theorem weight_count (h : ¬ r.Misread) : (r.count stats).weight = stats.weight + r.weight := by
  have hsource := @get_count stats r h .noSource
  have herror := @get_count stats r h .error
  simp only [ScanStats.get] at hsource herror
  unfold ScanStats.weight Scanned.weight
  rw [hsource, herror]
  split
  next h => simp [h]; omega
  next => split <;> omega

theorem get_foldl_count {rs : List Scanned} (h : ∀ r ∈ rs, ¬ r.Misread) (c : Counter) :
    (rs.foldl (fun stats r => r.count stats) stats).get c =
      stats.get c + rs.countP fun r => r.skippedAs = some c := by
  induction rs generalizing stats with
  | nil => rfl
  | cons r rs ih =>
    rw [List.foldl_cons, ih fun r hr => h r (List.mem_cons_of_mem _ hr),
      get_count (h r List.mem_cons_self), List.countP_cons, Nat.add_assoc, Nat.add_comm (ite _ _ _)]
    simp

theorem weight_foldl_count (rs : List Scanned) :
    (rs.foldl (fun stats r => r.count stats) stats).weight ≤
      stats.weight + (rs.map Scanned.weight).sum := by
  induction rs generalizing stats with
  | nil => exact Nat.le_refl _
  | cons r rs ih =>
    have hone : (r.count stats).weight ≤ stats.weight + r.weight := by
      by_cases hmisread : r.Misread
      · exact (weight_count_lt hmisread).le
      · exact (weight_count hmisread).le
    have hrest := @ih (r.count stats)
    rw [List.foldl_cons, List.map_cons, List.sum_cons]
    omega

theorem weight_foldl_count_lt {rs : List Scanned} (h : ∃ r ∈ rs, r.Misread) :
    (rs.foldl (fun stats r => r.count stats) stats).weight <
      stats.weight + (rs.map Scanned.weight).sum := by
  obtain ⟨r, hr, hmisread⟩ := h
  obtain ⟨before, after, rfl⟩ := List.mem_iff_append.mp hr
  have hbefore := @weight_foldl_count stats before
  have hone := @weight_count_lt (before.foldl (fun stats r => r.count stats) stats) r hmisread
  have hafter := @weight_foldl_count
    (r.count (before.foldl (fun stats r => r.count stats) stats)) after
  rw [List.foldl_append, List.foldl_cons, List.map_append, List.sum_append, List.map_cons,
    List.sum_cons]
  omega

theorem sum_weight (rs : List Scanned) : (rs.map Scanned.weight).sum =
    (rs.countP fun r => r.skippedAs = some .noSource) +
      2 * rs.countP fun r => r.skippedAs = some .error := by
  induction rs with
  | nil => rfl
  | cons r rs ih =>
    rw [List.map_cons, List.sum_cons, ih, List.countP_cons, List.countP_cons]
    unfold Scanned.weight
    cases hskip : r.skippedAs with
    | none => simp
    | some c => cases c <;> simp <;> omega

/-- Every item is reported or counted in one place. -/
theorem length_eq_counts (rs : List Scanned) : rs.length =
    (rs.countP fun r => r.skippedAs = none) + (rs.countP fun r => r.skippedAs = some .noSource) +
      (rs.countP fun r => r.skippedAs = some .foreignVi) +
      (rs.countP fun r => r.skippedAs = some .alreadyDone) +
      rs.countP fun r => r.skippedAs = some .error := by
  induction rs with
  | nil => rfl
  | cons r rs ih =>
    simp only [List.length_cons, List.countP_cons, ih]
    cases hskip : r.skippedAs with
    | none => simp; omega
    | some c => cases c <;> simp <;> omega

end Reasons

section Scans

variable {L : Type} [LedgerProtocol L] {contentHash : Bytes → Str} {disk : Disk} {ledger : L}
  {langPriority : List Str} {items : List MediaItem} {scanned : List (MediaItem × Scanned)}
  {path : Path} {lang : Str} {verdict : Eligibility}

/-- A verdict is for a source that is gone, for the error of one that cannot be read, or it has no
text of theirs in it. -/
theorem isEligible_cases
    (h : isEligible contentHash disk.toFileSystem path ledger = .ok verdict) :
    disk.exists? path = false ∧ verdict = .noSource path ∨
    (∃ entry exc, disk.exists? path = true ∧ check ledger path.str = .ok (some entry) ∧
      entry.status = .done ∧ disk.exists? (deriveViSidecarPath disk.toFileSystem path) = true ∧
      disk.readBytes path = .error exc ∧ verdict = .unreadable exc) ∨
    disk.exists? path = true ∧
      (∀ entry exc, check ledger path.str = .ok (some entry) → entry.status = .done →
        disk.exists? (deriveViSidecarPath disk.toFileSystem path) = true →
        disk.readBytes path ≠ .error exc) ∧
      ¬ (Scanned.judged path lang verdict).Misread := by
  unfold isEligible at h
  cases hexists : disk.exists? path with
  | false =>
    rw [hexists] at h
    cases h
    exact .inl ⟨rfl, rfl⟩
  | true =>
    rw [hexists] at h
    simp only [Bool.not_true, Bool.false_eq_true, if_false] at h
    obtain ⟨row, hrow, h⟩ := bind_ok h
    cases row with
    | none =>
      refine .inr (.inr ⟨rfl, fun entry exc hentry => ?_, ?_⟩)
      · cases hrow.symm.trans hentry
      · dsimp only at h
        split at h
        next =>
          obtain ⟨prior, _, h⟩ := bind_ok h
          cases prior <;> cases h <;> exact not_false
        next =>
          cases h
          exact not_false
    | some entry =>
      dsimp only at h
      split at h
      next hdone =>
        split at h
        next exc hread =>
          cases h
          exact .inr (.inl ⟨entry, exc, rfl, hrow, hdone.1, hdone.2, hread, rfl⟩)
        next bytes hread =>
          refine .inr (.inr ⟨rfl, fun _ exc _ _ _ hread' => ?_, ?_⟩)
          · cases hread.symm.trans hread'
          · split at h <;> cases h <;> exact not_false
      next hnot =>
        refine .inr (.inr ⟨rfl, fun entry' exc hentry hdone hvi => ?_, ?_⟩)
        · cases hrow.symm.trans hentry
          exact absurd ⟨hdone, hvi⟩ hnot
        · split at h <;> cases h <;> exact not_false

/-- The texts of a source mislead just when its verdict is misread. -/
theorem plainTexts_iff
    (h : isEligible contentHash disk.toFileSystem path ledger = .ok verdict) :
    PlainTexts disk ledger path ↔ ¬ (Scanned.judged path lang verdict).Misread := by
  rcases @isEligible_cases _ _ _ _ _ _ lang _ h with ⟨hgone, rfl⟩ |
    ⟨entry, exc, hthere, hrow, hdone, hvi, hread, rfl⟩ | ⟨hthere, hreads, hplain⟩
  · constructor
    · rintro hplain ⟨word, hword, hin⟩
      exact hplain.missing hgone word hword hin
    · intro hnot
      refine ⟨fun _ word hword hin => hnot ⟨word, hword, hin⟩, fun _ _ hthere => ?_⟩
      cases hgone.symm.trans hthere
  · constructor
    · rintro hplain ⟨word, hword, hin⟩
      exact hplain.unreadable entry exc hthere hrow hdone hvi hread word hword hin
    · intro hnot
      refine ⟨fun hgone => ?_, fun _ exc' _ _ _ _ hread' word hword hin => ?_⟩
      · cases hgone.symm.trans hthere
      · cases hread.symm.trans hread'
        exact hnot ⟨word, hword, hin⟩
  · refine iff_of_true ⟨fun hgone => ?_, fun entry exc _ hrow hdone hvi hread => ?_⟩ hplain
    · cases hgone.symm.trans hthere
    · exact absurd hread (hreads entry exc hrow hdone hvi)

theorem scanned_of_mapM (h : items.mapM (fun item =>
      (scanItem contentHash disk ledger langPriority item).map (item, ·)) = .ok scanned) :
    List.Forall₂ (fun item r => scanItem contentHash disk ledger langPriority item = .ok r) items
      (scanned.map Prod.snd) := by
  rw [List.forall₂_map_right_iff]
  refine (mapM_ok h).imp fun item pair hpair => ?_
  obtain ⟨r, hr, rfl⟩ := map_ok hpair
  exact hr

theorem countP_skippedAs {rs : List Scanned} (h : List.Forall₂ (fun item r =>
      scanItem contentHash disk ledger langPriority item = .ok r) items rs) (c : Counter) :
    (items.countP fun item => skippedAs contentHash disk ledger langPriority item = some c) =
      rs.countP fun r => r.skippedAs = some c := by
  induction h with
  | nil => rfl
  | @cons item r items rs hr _ ih =>
    have hskip : skippedAs contentHash disk ledger langPriority item = r.skippedAs := by
      unfold skippedAs
      rw [hr]
      rfl
    rw [List.countP_cons, List.countP_cons, ih, hskip]

theorem length_eligible (scanned : List (MediaItem × Scanned)) :
    (scanned.filterMap fun x => x.2.eligibleItem x.1).length =
      (scanned.map Prod.snd).countP fun r => r.skippedAs = none := by
  have hone : ∀ (item : MediaItem) (r : Scanned),
      (r.eligibleItem item).isSome = decide (r.skippedAs = none) := by
    intro item r
    cases r with
    | noSource => rfl
    | judged path lang verdict => cases verdict <;> rfl
  induction scanned with
  | nil => rfl
  | cons x scanned ih =>
    have hx := hone x.1 x.2
    rw [List.filterMap_cons, List.map_cons, List.countP_cons, ← ih, ← hx]
    cases hitem : x.2.eligibleItem x.1 with
    | none => rfl
    | some item => rfl

theorem forall_scanned_iff {rs : List Scanned} {P : Scanned → Prop}
    (h : List.Forall₂ (fun item r =>
      scanItem contentHash disk ledger langPriority item = .ok r) items rs) :
    (∀ r ∈ rs, P r) ↔ ∀ item ∈ items, ∀ r,
      scanItem contentHash disk ledger langPriority item = .ok r → P r := by
  induction h with
  | nil => simp
  | @cons item r items rs hr _ ih =>
    rw [List.forall_mem_cons, List.forall_mem_cons, ih]
    refine and_congr_left fun _ => ?_
    constructor
    · intro hp r' hr'
      cases hr.symm.trans hr'
      exact hp
    · exact fun hp => hp r hr

/-- An item is counted right just when the texts of the source it has do not mislead. -/
theorem not_misread_iff {item : MediaItem} {r : Scanned}
    (h : scanItem contentHash disk ledger langPriority item = .ok r) : ¬ r.Misread ↔
      ∀ mediaPath path lang, item.localPath = some mediaPath →
        findSourceSub disk mediaPath langPriority = some (path, lang) →
        PlainTexts disk ledger path := by
  unfold scanItem at h
  split at h
  next => cases h
  next mediaPath hmedia =>
    split at h
    next hnone =>
      cases h
      refine iff_of_true (fun hmisread => hmisread) fun mediaPath' path lang hmedia' hfound => ?_
      cases hmedia.symm.trans hmedia'
      cases hnone.symm.trans hfound
    next path lang hfound =>
      obtain ⟨verdict, hverdict, rfl⟩ := map_ok h
      rw [← plainTexts_iff (mapError_ok hverdict)]
      constructor
      · intro hplain mediaPath' path' lang' hmedia' hfound'
        cases hmedia.symm.trans hmedia'
        cases hfound.symm.trans hfound'
        exact hplain
      · exact fun hplain => hplain mediaPath path lang hmedia hfound

end Scans

/-- A scan counts every item it skips for the case that rejects it just when no path of a source
that is gone, and no error of one that cannot be read, has words of another reason in it. -/
theorem counted_by_case_iff {L : Type} [LedgerProtocol L] (contentHash : Bytes → Str) (disk : Disk)
    (ledger : L) (langPriority : List Str) (items : List MediaItem) (eligible : List EligibleItem)
    (stats : ScanStats)
    (h : scanForEligibleItems contentHash disk ledger langPriority items = .ok (eligible, stats)) :
    CountedByCase contentHash disk ledger langPriority items eligible stats ↔
      ∀ item ∈ items, ∀ mediaPath path lang, item.localPath = some mediaPath →
        findSourceSub disk mediaPath langPriority = some (path, lang) →
        PlainTexts disk ledger path := by
  obtain ⟨scanned, hscanned, hreturn⟩ := bind_ok h
  cases hreturn
  have hrs := scanned_of_mapM hscanned
  have hfold : scanned.foldl (fun stats x => x.2.count stats) { scanned := items.length } =
      (scanned.map Prod.snd).foldl (fun stats r => r.count stats) { scanned := items.length } :=
    List.foldl_map.symm
  have hmisread : (∀ r ∈ scanned.map Prod.snd, ¬ r.Misread) ↔
      ∀ item ∈ items, ∀ mediaPath path lang, item.localPath = some mediaPath →
        findSourceSub disk mediaPath langPriority = some (path, lang) →
        PlainTexts disk ledger path := by
    rw [forall_scanned_iff hrs]
    constructor
    · intro hall item hitem mediaPath path lang hmedia hfound
      obtain ⟨_, hone⟩ := ok_of_mapM hscanned item hitem
      obtain ⟨r, hr, _⟩ := map_ok hone
      exact (not_misread_iff hr).mp (hall item hitem r hr) mediaPath path lang hmedia hfound
    · exact fun hall item hitem r hr => (not_misread_iff hr).mpr (hall item hitem)
  rw [← hmisread]
  constructor
  · intro hcounts r hr hbad
    have hless := @weight_foldl_count_lt { scanned := items.length } _ ⟨r, hr, hbad⟩
    have hsource := hcounts.cases .noSource
    have herror := hcounts.cases .error
    rw [hfold, countP_skippedAs hrs] at hsource herror
    rw [sum_weight, ← hsource, ← herror] at hless
    simp [ScanStats.weight, ScanStats.get] at hless
  · intro hplain
    have hget := fun c => @get_foldl_count { scanned := items.length } _ hplain c
    have hzero : ∀ c, ScanStats.get { scanned := items.length } c = 0 := by
      intro c
      cases c <;> rfl
    simp only [hzero, Nat.zero_add] at hget
    constructor
    · have hsource := hget .noSource
      have hforeign := hget .foreignVi
      have hdone := hget .alreadyDone
      have herror := hget .error
      simp only [ScanStats.get] at hsource hforeign hdone herror
      rw [hfold, scanned_foldl_count, length_eligible, hsource, hforeign, hdone, herror,
        ← length_eq_counts]
      exact hrs.length_eq
    · intro c
      rw [hfold, countP_skippedAs hrs, hget]

/-- A directory with entries that lead nowhere. -/
def deadLinks (names : List Str) (h : ∀ name ∈ names, '/' ∉ name) : Disk where
  toFileSystem := .linking ⟨"/link"⟩ ⟨"/link"⟩ fun _ => none
  toDirectories := tvDirectory names h

/-- A source that is gone counts as an item without one. -/
theorem dead_link_counted :
    CountedByCase (fun _ => "") (deadLinks ["A.en.srt"] (by decide)) Ledger.empty ["en"]
      [{ localPath := some ⟨"/tv/A.mkv"⟩ }] [] { scanned := 1, noSource := 1 } := by
  apply (counted_by_case_iff _ _ _ _ _ _ _ (by decide +kernel)).mpr
  intro item hitem mediaPath path lang hmedia hfound
  rw [List.mem_singleton.mp hitem] at hmedia
  cases hmedia
  have hsource : findSourceSub (deadLinks ["A.en.srt"] (by decide)) ⟨"/tv/A.mkv"⟩ ["en"] =
      some (⟨("/tv/A.en.srt" : Str)⟩, ("en" : Str)) := by decide
  cases hsource.symm.trans hfound
  have hgone : (deadLinks ["A.en.srt"] (by decide)).exists? ⟨"/tv/A.en.srt"⟩ = false := by decide
  refine ⟨fun _ => by decide +kernel, fun _ _ hexists => ?_⟩
  cases hgone.symm.trans hexists

/-- With the wrong word in its path it counts as a translation by someone else. -/
theorem foreign_film_miscounted :
    scanForEligibleItems (fun _ => "") (deadLinks ["Foreign.en.srt"] (by decide)) Ledger.empty
        ["en"] [{ localPath := some ⟨"/tv/Foreign.mkv"⟩ }] =
      .ok ([], { scanned := 1, foreignVi := 1 }) ∧
    ¬ CountedByCase (fun _ => "") (deadLinks ["Foreign.en.srt"] (by decide)) Ledger.empty ["en"]
      [{ localPath := some ⟨"/tv/Foreign.mkv"⟩ }] [] { scanned := 1, foreignVi := 1 } := by
  refine ⟨by decide +kernel, fun h => ?_⟩
  have hforeign := h.cases .foreignVi
  revert hforeign
  decide +kernel

end Trezarr
