import Trezarr.Discover.Gap
import Trezarr.Discover.Scan

/-! Which items of a library a scan reports, and what it counts on the way. -/
namespace Trezarr
open Text Rows Fallible LedgerProtocol LawfulLedger

structure ScanStats where
  scanned : ℕ := 0
  noSource : ℕ := 0
  foreignVi : ℕ := 0
  alreadyDone : ℕ := 0
  error : ℕ := 0
  sourceUpgraded : ℕ := 0
  deriving DecidableEq, Repr

inductive ScanError
  /-- An item without a path has no `parent` to look in. -/
  | attributeError
  | ledger (err : QueryError)
  deriving DecidableEq, Repr

/-- What the scan comes to for one item. -/
inductive Scanned
  | noSource
  | judged (sourceSubPath : Path) (sourceLang : Str) (verdict : Eligibility)
  deriving DecidableEq, Repr

namespace Scanned

def eligibleItem (mediaItem : MediaItem) : Scanned → Option EligibleItem
  | noSource => none
  | judged sourceSubPath sourceLang verdict =>
    if verdict.eligible then some ⟨mediaItem, sourceSubPath, sourceLang⟩ else none

/-- A reason counts by the words in it, paths and error texts included. -/
def count (stats : ScanStats) : Scanned → ScanStats
  | noSource => { stats with noSource := stats.noSource + 1 }
  | judged _ _ verdict =>
    let has (words : Str) : Prop := words <:+: lower verdict.reason
    if verdict.eligible then
      if has "richer source" then { stats with sourceUpgraded := stats.sourceUpgraded + 1 }
      else stats
    else if has "foreign" then { stats with foreignVi := stats.foreignVi + 1 }
    else if has "already translated" then { stats with alreadyDone := stats.alreadyDone + 1 }
    else if has "richer source" then { stats with sourceUpgraded := stats.sourceUpgraded + 1 }
    else if has "no source" then { stats with noSource := stats.noSource + 1 }
    else if has "unreadable" then { stats with error := stats.error + 1 }
    else stats

end Scanned

/-- A file renamed over an entry is listed in its directory from then on. -/
def Directories.withEntry (directories : Directories) (links : Links Path) (entry : Path) :
    Directories where
  listing dir := (directories.listing dir).map fun names =>
    if links.entry ⟨dir ++ entry.name⟩ = entry ∧ entry.name ∉ names then names ++ [entry.name]
    else names
  existsError := directories.existsError
  listing_component := by
    intro dir listed name hlisted hname
    obtain ⟨names, hnames, rfl⟩ := map_ok hlisted
    have hold : name ∈ names → '/' ∉ name := directories.listing_component hnames
    split at hname
    next =>
      rcases List.mem_append.mp hname with h | h
      · exact hold h
      · rw [List.mem_singleton.mp h]
        exact not_mem_rtakeWhile entry.str
    next => exact hold hname

theorem Directories.withEntry_congr {directories : Directories} {links links' : Links Path}
    {entry : Path} (h : ∀ p, links.entry p = links'.entry p) :
    directories.withEntry links entry = directories.withEntry links' entry := by
  simp only [Directories.withEntry, h]

theorem Directories.listing_withEntry {directories : Directories} {links : Links Path}
    {entry : Path} {dir name : Str}
    (h : ∃ names, directories.listing dir = .ok names ∧ name ∈ names) :
    ∃ names, (directories.withEntry links entry).listing dir = .ok names ∧ name ∈ names := by
  obtain ⟨names, hnames, hmem⟩ := h
  simp only [Directories.withEntry, hnames]
  refine ⟨_, rfl, ?_⟩
  dsimp only
  split
  next => exact List.mem_append_left _ hmem
  next => exact hmem

section Scan

variable {L : Type} [LedgerProtocol L] (contentHash : Bytes → Str) (disk : Disk) (ledger : L)
  (langPriority : List Str)

def scanItem (mediaItem : MediaItem) : Except ScanError Scanned :=
  match mediaItem.localPath with
  | none => .error .attributeError
  | some mediaPath =>
    match findSourceSub disk mediaPath langPriority with
    | none => .ok .noSource
    | some (path, lang) =>
      ((isEligible contentHash disk.toFileSystem path ledger).mapError .ledger).map
        (.judged path lang)

/-- One item that raises ends the scan. -/
def scanForEligibleItems (items : List MediaItem) :
    Except ScanError (List EligibleItem × ScanStats) := do
  let scanned ← items.mapM fun item => (scanItem contentHash disk ledger langPriority item).map
    (item, ·)
  return (scanned.filterMap fun (item, result) => result.eligibleItem item,
    scanned.foldl (fun stats (_, result) => result.count stats) { scanned := items.length })

/-- No scan, of whatever library, reports the item. -/
def Unreported (mediaItem : MediaItem) : Prop :=
  ∀ items eligible stats,
    scanForEligibleItems contentHash disk ledger langPriority items = .ok (eligible, stats) →
    ∀ item ∈ eligible, item.mediaItem ≠ mediaItem

end Scan

section Reports

variable {L : Type} [LedgerProtocol L] {contentHash : Bytes → Str} {disk : Disk} {ledger : L}
  {langPriority : List Str} {mediaItem : MediaItem} {item : EligibleItem}
  {items : List MediaItem} {eligible : List EligibleItem} {stats : ScanStats}

theorem mem_scanForEligibleItems
    (h : scanForEligibleItems contentHash disk ledger langPriority items = .ok (eligible, stats))
    (hitem : item ∈ eligible) : ∃ result,
      scanItem contentHash disk ledger langPriority item.mediaItem = .ok result ∧
        result.eligibleItem item.mediaItem = some item := by
  obtain ⟨scanned, hscanned, hreturn⟩ := bind_ok h
  cases hreturn
  obtain ⟨⟨mediaItem, result⟩, hmem, hresult⟩ := List.mem_filterMap.mp hitem
  obtain ⟨i, hi, hget⟩ := List.mem_iff_getElem.mp hmem
  have hall := mapM_ok hscanned
  have hlen := hall.length_eq
  have hone := hall.get (hlen ▸ hi) hi
  obtain ⟨result', hresult', hpair⟩ := map_ok hone
  rw [List.get_eq_getElem, List.get_eq_getElem, hget] at hpair
  cases hpair
  cases result with
  | noSource => cases hresult
  | judged path lang verdict =>
    have hsame := hresult
    simp only [Scanned.eligibleItem] at hsame
    split at hsame
    next =>
      cases hsame
      exact ⟨_, hresult', hresult⟩
    next => cases hsame

/-- An item is reported for the file that the scan finds for it, and by that alone. -/
theorem unreported_iff : Unreported contentHash disk ledger langPriority mediaItem ↔
    ∀ mediaPath path lang, mediaItem.localPath = some mediaPath →
      findSourceSub disk mediaPath langPriority = some (path, lang) →
      ¬ ∃ verdict, isEligible contentHash disk.toFileSystem path ledger = .ok verdict ∧
        verdict.eligible = true := by
  constructor
  · rintro h mediaPath path lang hmedia hfound ⟨verdict, hverdict, heligible⟩
    have hone : scanItem contentHash disk ledger langPriority mediaItem =
        .ok (.judged path lang verdict) := by
      simp only [scanItem, hmedia, hfound, hverdict]
      rfl
    have hscan : scanForEligibleItems contentHash disk ledger langPriority [mediaItem] =
        .ok ([⟨mediaItem, path, lang⟩],
          (Scanned.judged path lang verdict).count { scanned := 1 }) := by
      simp [scanForEligibleItems, hone, Except.map, Scanned.eligibleItem, heligible]
    exact h _ _ _ hscan _ (List.mem_singleton.mpr rfl) rfl
  · intro h items eligible stats hscan item hitem heq
    obtain ⟨result, hresult, hreported⟩ := mem_scanForEligibleItems hscan hitem
    rw [heq] at hresult hreported
    unfold scanItem at hresult
    split at hresult
    next => cases hresult
    next mediaPath hmedia =>
      split at hresult
      next =>
        cases hresult
        cases hreported
      next path lang hfound =>
        obtain ⟨verdict, hverdict, rfl⟩ := map_ok hresult
        simp only [Scanned.eligibleItem] at hreported
        split at hreported
        next heligible =>
          exact h mediaPath path lang hmedia hfound ⟨verdict, mapError_ok hverdict, heligible⟩
        next => cases hreported

end Reports

end Trezarr
