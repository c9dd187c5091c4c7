import Trezarr.Lib.AtomicReplace
import Trezarr.Output.LedgerFile
import Trezarr.Translate.TranslateFile

/-! The files that are renamed into place: sidecars, the JSON ledger and quarantine artifacts. Their
writers run at once, in threads and over restarts. -/
namespace Trezarr
open Text Json

section Writers

/-- The characters of the random part of a temporary name. -/
def tempLetters : Str := "abcdefghijklmnopqrstuvwxyz0123456789_"

/-- A stem that `NamedTemporaryFile` may pick. -/
def TempStem (stem : Str) : Prop :=
  ∃ letters : Str, letters.length = 8 ∧ (∀ c ∈ letters, c ∈ tempLetters) ∧ stem = "tmp" ++ letters

/-- A name that `NamedTemporaryFile` may pick in a directory. -/
def TempName (dir : Str) (p : Path) : Prop := ∃ stem, TempStem stem ∧ p.str = dir ++ stem ++ ".tmp"

def Path.withSuffix (p : Path) (suffix : Str) : Path := ⟨p.parent ++ p.stem ++ suffix⟩

/-- A sidecar whose writer has a text for it. -/
structure SidecarWrite where
  source : Path
  doc : SubDoc
  format : Format
  text : Str
  hformat : Format.ofSuffix (viSidecarOf source).suffix = some format
  htext : format.write { doc with encoding := "utf-8" } = some text

def artifactJson (reason : Str) (failing : List ℕ) (timestamp : Str) (source : Path) : Json :=
  .obj [(points "reason", .str (points reason)),
    (points "failing_cue_indices", .arr (failing.map fun i => .int i)),
    (points "timestamp", .str (points timestamp)),
    (points "source_path", .str (points source.str))]

inductive AtomicWrite
  | sidecar (write : SidecarWrite)
  | ledger (path : Path) (saved : Ledger)
  | quarantine (env : Env) (job : Job) (reason : Str) (failing : List ℕ)

namespace AtomicWrite

/-- Written under the temporary name itself. -/
def plain (dest : Path) (content : Bytes) : AtomicReplace.Job Path UInt8 where
  dest := dest
  temp := TempName dest.parent
  route := id
  content := content

def job : AtomicWrite → AtomicReplace.Job Path UInt8
  | sidecar write =>
    { dest := viSidecarOf write.source
      temp := TempName (viSidecarOf write.source).parent
      route := fun slot => slot.withSuffix (viSidecarOf write.source).suffix
      content := encodeUtf8 write.text }
  | ledger path saved => plain path (ledgerContent saved.legacyData)
  | quarantine env job reason failing => plain (quarantinePath env job)
      (encodeUtf8 (dumps 2 (artifactJson reason failing env.now job.path)))

end AtomicWrite

/-- What a file is written under before it is renamed. -/
def sideSuffixes : List Str := [".tmp", ".srt", ".ass", ".ssa", ".vtt"]

def SideName (p : Path) : Prop := TempStem p.stem ∧ p.suffix ∈ sideSuffixes

end Writers

section Names

variable {dir stem : Str} {p slot : Path}

theorem TempStem.facts (h : TempStem stem) : stem ≠ [] ∧ '.' ∉ stem ∧ '/' ∉ stem := by
  obtain ⟨letters, _, hletters, rfl⟩ := h
  have hdot : '.' ∉ tempLetters := by decide
  have hslash : '/' ∉ tempLetters := by decide
  refine ⟨by simp, fun hmem => ?_, fun hmem => ?_⟩
  · rcases List.mem_append.mp hmem with hfront | hback
    · exact absurd hfront (by decide)
    · exact hdot (hletters _ hback)
  · rcases List.mem_append.mp hmem with hfront | hback
    · exact absurd hfront (by decide)
    · exact hslash (hletters _ hback)

/-- A side suffix is a dot and three characters. -/
theorem sideSuffix_facts : ∀ suffix ∈ sideSuffixes, ∃ ext, suffix = '.' :: ext ∧ ext.length = 3 ∧
    '.' ∉ ext ∧ '/' ∉ ext := by
  intro suffix hsuffix
  simp only [sideSuffixes, List.mem_cons, List.not_mem_nil, or_false] at hsuffix
  rcases hsuffix with rfl | rfl | rfl | rfl | rfl
  · exact ⟨"tmp", rfl, rfl, by decide, by decide⟩
  · exact ⟨"srt", rfl, rfl, by decide, by decide⟩
  · exact ⟨"ass", rfl, rfl, by decide, by decide⟩
  · exact ⟨"ssa", rfl, rfl, by decide, by decide⟩
  · exact ⟨"vtt", rfl, rfl, by decide, by decide⟩

/-- A temporary file in a directory, under any of the suffixes. -/
theorem split_child (hdir : dir = [] ∨ dir.getLast? = some '/') (hstem : TempStem stem)
    {suffix : Str} (hsuffix : suffix ∈ sideSuffixes) (hp : p.str = dir ++ stem ++ suffix) :
    p.parent = dir ∧ p.stem = stem ∧ p.suffix = suffix := by
  obtain ⟨hne, _, hslash⟩ := hstem.facts
  obtain ⟨ext, rfl, hlength, hdot, hslash'⟩ := sideSuffix_facts suffix hsuffix
  have hext : ext ≠ [] := by
    rintro rfl
    cases hlength
  have hchild : '/' ∉ stem ++ '.' :: ext := by simp [hslash, hslash']
  have hname : p.name = stem ++ '.' :: ext := by
    have h := Path.name_of_child hdir hchild
    rwa [← List.append_assoc, ← hp] at h
  refine ⟨?_, Path.splitSuffix_of_name hname hne hext hdot⟩
  have hboth := p.parent_append_name
  rw [hname, hp, List.append_assoc] at hboth
  exact List.append_cancel_right hboth

theorem sideName_of_split {suffix : Str} (hdir : dir = [] ∨ dir.getLast? = some '/')
    (hstem : TempStem stem) (hsuffix : suffix ∈ sideSuffixes)
    (hp : p.str = dir ++ stem ++ suffix) : SideName p := by
  obtain ⟨_, hpstem, hpsuffix⟩ := split_child hdir hstem hsuffix hp
  exact ⟨hpstem ▸ hstem, hpsuffix ▸ hsuffix⟩

theorem TempName.sideName (h : TempName p.parent slot) : SideName slot := by
  obtain ⟨stem, hstem, hslot⟩ := h
  exact sideName_of_split p.parent_cases hstem (by decide) hslot

theorem TempName.withSuffix (h : TempName p.parent slot) (suffix : Str) :
    ∃ front, slot.str = front ++ ".tmp" ∧ (slot.withSuffix suffix).str = front ++ suffix := by
  obtain ⟨stem, hstem, hslot⟩ := h
  obtain ⟨hparent, hpstem, _⟩ := split_child p.parent_cases hstem (by decide) hslot
  exact ⟨p.parent ++ stem, hslot, by rw [Path.withSuffix, hparent, hpstem]⟩

theorem viSidecarOf_name (p : Path) :
    (viSidecarOf p).name = stripLangCode p.stem ++ ".vi" ++ lower p.suffix := by
  have hname : '/' ∉ p.name := not_mem_rtakeWhile p.str
  rw [← p.stem_append_suffix, List.mem_append, not_or] at hname
  have hstem : '/' ∉ stripLangCode p.stem := fun hmem =>
    hname.1 ((stripLangCode_prefix_stem p.stem).mem hmem)
  have hsuffix : '/' ∉ lower p.suffix := fun hmem =>
    hname.2 (mem_of_mem_lowerFrom (by decide) hmem)
  have hchild : '/' ∉ stripLangCode p.stem ++ ".vi" ++ lower p.suffix := by simp [hstem, hsuffix]
  rw [← Path.name_of_child p.parent_cases hchild]
  simp [viSidecarOf]

/-- The last dot of a sidecar's name comes after another one, or before two letters. -/
theorem viSidecarOf_split {ext : Str} (hext : (viSidecarOf p).suffix = '.' :: ext)
    (hdot : '.' ∉ ext) : lower p.suffix = '.' :: ext ∧ '.' ∈ (viSidecarOf p).stem ∨
      ext = ("vi" : Str) := by
  have hname := (viSidecarOf p).stem_append_suffix
  rw [viSidecarOf_name, hext] at hname
  rcases lower_suffix_cases p with ⟨_, hlow⟩ | ⟨_, low, _, _, hlow, hdot'⟩
  · right
    rw [hlow, List.append_nil] at hname
    have hvi : stripLangCode p.stem ++ '.' :: ("vi" : Str) = (viSidecarOf p).stem ++ '.' :: ext :=
      hname.symm
    exact (last_split_inj (by decide) hdot hvi).2.symm
  · left
    rw [hlow] at hname ⊢
    obtain ⟨hstem, rfl⟩ := last_split_inj hdot hdot' hname
    rw [hstem]
    exact ⟨rfl, by simp⟩

theorem SidecarWrite.suffix_mem (write : SidecarWrite) :
    (viSidecarOf write.source).suffix ∈ sideSuffixes := by
  have hlower : lower (viSidecarOf write.source).suffix ∈ sideSuffixes := by
    have hformat := write.hformat
    unfold Format.ofSuffix at hformat
    dsimp only at hformat
    split at hformat
    next h => exact h ▸ by decide
    next =>
      split at hformat
      next h => rcases h with h | h <;> exact h ▸ by decide
      next =>
        split at hformat
        next h => exact h ▸ by decide
        next => cases hformat
  rcases (viSidecarOf write.source).suffix_cases with hnil | ⟨ext, hext, hdot⟩
  · rw [hnil] at hlower
    exact absurd hlower (by decide)
  · rcases viSidecarOf_split hext hdot with ⟨hlow, _⟩ | rfl
    · rwa [hext, ← hlow, lower_lower, hlow, ← hext] at hlower
    · rw [hext] at hlower
      exact absurd hlower (by decide)

end Names

section Apart

theorem TempName.route {write : AtomicWrite} {slot : Path} (h : write.job.temp slot) :
    ∃ front suffix, suffix ∈ sideSuffixes ∧ slot.str = front ++ ".tmp" ∧
      (write.job.route slot).str = front ++ suffix := by
  have hplain : ∀ {dest : Path}, TempName dest.parent slot → ∃ front suffix,
      suffix ∈ sideSuffixes ∧ slot.str = front ++ ".tmp" ∧ slot.str = front ++ suffix := by
    intro dest htemp
    obtain ⟨stem, _, hslot⟩ := htemp
    exact ⟨dest.parent ++ stem, ".tmp", by decide, hslot, hslot⟩
  cases write with
  | sidecar write =>
    obtain ⟨front, hslot, hroute⟩ := TempName.withSuffix h (viSidecarOf write.source).suffix
    exact ⟨front, _, write.suffix_mem, hslot, hroute⟩
  | ledger path saved => exact hplain h
  | quarantine env job reason failing => exact hplain h

theorem sideSuffix_append_inj {front front' suffix suffix' : Str} (hsuffix : suffix ∈ sideSuffixes)
    (hsuffix' : suffix' ∈ sideSuffixes) (h : front ++ suffix = front' ++ suffix') :
    front = front' := by
  obtain ⟨ext, rfl, hlength, _⟩ := sideSuffix_facts suffix hsuffix
  obtain ⟨ext', rfl, hlength', _⟩ := sideSuffix_facts suffix' hsuffix'
  refine (List.append_inj' h ?_).1
  rw [List.length_cons, List.length_cons, hlength, hlength']

theorem not_sideName_sidecar (source : Path) : ¬ SideName (viSidecarOf source) := by
  rintro ⟨hstem, hsuffix⟩
  obtain ⟨ext, hext, hlength, hdot, _⟩ := sideSuffix_facts _ hsuffix
  rcases viSidecarOf_split hext hdot with ⟨_, hmem⟩ | rfl
  · exact (TempStem.facts hstem).2.1 hmem
  · cases hlength

theorem not_sideName_quarantine (env : Env) (job : Job) : ¬ SideName (quarantinePath env job) := by
  rintro ⟨_, hsuffix⟩
  have hends : (quarantinePath env job).suffix <:+ (quarantinePath env job).str := by
    rw [← (quarantinePath env job).parent_append_name,
      ← (quarantinePath env job).stem_append_suffix, ← List.append_assoc]
    exact List.suffix_append _ _
  have hjson : ("json" : Str) <:+ (quarantinePath env job).str := by
    have hstr : (quarantinePath env job).str =
        env.settings.translateQuarantineDir.rdropWhile (· = '/') ++ "/" ++ job.path.stem ++ "." ++
          "json" := by
      rw [List.append_assoc _ ("." : Str)]
      rfl
    rw [hstr]
    exact List.suffix_append _ _
  have hall : ∀ suffix ∈ sideSuffixes, ¬ suffix <:+ ("json" : Str) ∧ suffix.length = 4 := by decide
  obtain ⟨hnot, hlength⟩ := hall _ hsuffix
  exact hnot (List.suffix_of_suffix_length_le hends hjson (Nat.le_of_eq hlength))

/-- No writer takes another one's file, whichever of the three it is. -/
theorem apart_writes {ι : Type*} {writes : ι → AtomicWrite}
    (hledger : ∀ i path saved, writes i = .ledger path saved → ¬ SideName path) :
    AtomicReplace.Apart (fun i => (writes i).job) SideName where
  temp_side i slot h := by
    cases hwrite : writes i with
    | sidecar write => exact TempName.sideName (hwrite ▸ h)
    | ledger path saved => exact TempName.sideName (hwrite ▸ h)
    | quarantine env job reason failing => exact TempName.sideName (hwrite ▸ h)
  route_side i slot h := by
    cases hwrite : writes i with
    | sidecar write =>
      rw [hwrite] at h
      obtain ⟨stem, hstem, hslot⟩ := h
      obtain ⟨hparent, hpstem, _⟩ := split_child (Path.parent_cases _) hstem (by decide) hslot
      refine sideName_of_split (viSidecarOf write.source).parent_cases hstem write.suffix_mem ?_
      show slot.parent ++ slot.stem ++ _ = _
      rw [hparent, hpstem]
    | ledger path saved => exact TempName.sideName (hwrite ▸ h)
    | quarantine env job reason failing => exact TempName.sideName (hwrite ▸ h)
  dest i := by
    cases hwrite : writes i with
    | sidecar write => exact not_sideName_sidecar write.source
    | ledger path saved => exact hledger i path saved hwrite
    | quarantine env job reason failing => exact not_sideName_quarantine env job
  route_injective i j slot slot' h h' heq := by
    obtain ⟨front, suffix, hsuffix, hslot, hroute⟩ := TempName.route h
    obtain ⟨front', suffix', hsuffix', hslot', hroute'⟩ := TempName.route h'
    have hfront := sideSuffix_append_inj hsuffix hsuffix'
      (hroute.symm.trans ((congrArg Path.str heq).trans hroute'))
    apply Path.eq_of_str
    rw [hslot, hslot', hfront]
  route_temp i j slot slot' h h' heq := by
    obtain ⟨front, suffix, hsuffix, hslot, hroute⟩ := TempName.route h
    obtain ⟨front', _, _, hslot', _⟩ := TempName.route h'
    have hfront := sideSuffix_append_inj hsuffix (by decide)
      (hroute.symm.trans ((congrArg Path.str heq).trans hslot'))
    apply Path.eq_of_str
    rw [hslot, hslot', hfront]

end Apart

section Runs

variable {ι : Type*} {writes : ι → AtomicWrite} {path : Path}

/-- The ledger at a path after one more rename. -/
def savedLast (writes : ι → AtomicWrite) (path : Path) (data : LedgerData) (i : ι) : LedgerData :=
  match writes i with
  | .ledger dest saved => if dest = path then saved.legacyData else data
  | _ => data

/-- Only ledgers are renamed to the path. -/
def LedgerPath (writes : ι → AtomicWrite) (path : Path) : Prop :=
  ∀ i, (writes i).job.dest = path → ∃ saved, writes i = .ledger path saved

theorem loads_written {rt : Runtime} (hlimit : 2 ≤ rt.recursionLimit)
    (hpath : LedgerPath writes path) {store : Path → Option Bytes} {data : LedgerData}
    (h : loadLedger rt (store path) = .ok data) (i : ι) :
    loadLedger rt (AtomicReplace.written (fun i => (writes i).job) store i path) =
      .ok (savedLast writes path data i) := by
  unfold AtomicReplace.written
  rw [Function.update_apply]
  split
  next hdest =>
    obtain ⟨saved, hwrite⟩ := hpath i hdest.symm
    have hlast : savedLast writes path data i = saved.legacyData := by
      rw [savedLast, hwrite]
      exact if_pos rfl
    have hcontent : (writes i).job.content = ledgerContent saved.legacyData := by rw [hwrite]; rfl
    rw [hlast, hcontent]
    exact loadLedger_content hlimit saved
  next hdest =>
    have hlast : savedLast writes path data i = data := by
      unfold savedLast
      split
      next dest saved hwrite =>
        have hne : dest ≠ path := by
          rintro rfl
          apply hdest
          dsimp only
          rw [hwrite]
          rfl
        exact if_neg hne
      next => rfl
    rw [hlast]
    exact h

theorem loads_renames {rt : Runtime} (hlimit : 2 ≤ rt.recursionLimit)
    (hpath : LedgerPath writes path) (renames : List ι) {store : Path → Option Bytes}
    {data : LedgerData} (h : loadLedger rt (store path) = .ok data) :
    loadLedger rt (renames.foldl (AtomicReplace.written fun i => (writes i).job) store path) =
      .ok (renames.foldl (savedLast writes path) data) := by
  induction renames generalizing store data with
  | nil => exact h
  | cons i renames ih => exact ih (loads_written hlimit hpath h i)

/-- Whatever the writers do at the same time, and wherever they fail or crash: a file holds what it
held before or all of what was last renamed to it, so a ledger is always loaded as it was saved;
and unless one of them crashes, writers that are done leave no temporary file. -/
theorem files_whole [DecidableEq ι] (rt : Runtime) (hlimit : 2 ≤ rt.recursionLimit)
    (hledger : ∀ i path saved, writes i = .ledger path saved → ¬ SideName path) {mayCrash : Prop}
    {s t : AtomicReplace.State ι Path UInt8} {renames : List ι}
    (hready : AtomicReplace.Ready SideName s)
    (hrun : AtomicReplace.Run (fun i => (writes i).job) mayCrash s renames t) :
    (∀ p, ¬ SideName p → t.contentAt p =
      renames.foldl (AtomicReplace.written fun i => (writes i).job) s.contentAt p) ∧
    (∀ path data, ¬ SideName path → LedgerPath writes path →
      loadLedger rt (s.contentAt path) = .ok data →
      loadLedger rt (t.contentAt path) = .ok (renames.foldl (savedLast writes path) data)) ∧
    (¬ mayCrash → (∀ i, (t.stage i).ended) → ∀ p, SideName p → t.names p ≠ none →
      s.names p ≠ none) := by
  have happart := apart_writes hledger
  refine ⟨fun p hp => hrun.contents happart hready hp, fun path data hside hpath hload => ?_,
    fun hcrash hended p hp => hrun.clean happart hcrash hended hp⟩
  rw [hrun.contents happart hready hside]
  exact loads_renames hlimit hpath renames hload

def blankSidecar : SidecarWrite where
  source := ⟨"/tv/E01.en.srt"⟩
  doc := { lines := [], encoding := "utf-8", lineEnding := "\n", separators := [] }
  format := .srt
  text := []
  hformat := rfl
  htext := rfl

def twoWrites : Bool → AtomicWrite
  | false => .ledger ⟨"/config/processed_files.json"⟩ (Ledger.empty.record savedEntry)
  | true => .sidecar blankSidecar

def noFiles : AtomicReplace.State Bool Path UInt8 := ⟨fun _ => none, fun _ => [], 0, fun _ => .idle⟩

/-- The ledger is there after the other writer has crashed in the middle of its file. -/
theorem ledger_after_crash : ∃ t, AtomicReplace.Run (fun i => (twoWrites i).job) True noFiles
      [false] t ∧
    loadLedger ⟨1000, id⟩ (t.contentAt ⟨"/config/processed_files.json"⟩) =
      .ok (Ledger.empty.record savedEntry).legacyData ∧
    t.contentAt ⟨"/tv/E01.vi.srt"⟩ = none := by
  have hledger : ∀ i path saved, twoWrites i = .ledger path saved → ¬ SideName path := by
    intro i path saved hwrite hside
    cases i with
    | false =>
      cases hwrite
      exact absurd hside.2 (by decide)
    | true => cases hwrite
  have hready : AtomicReplace.Ready SideName noFiles := by
    refine ⟨fun _ => rfl, fun _ _ hname => ?_, fun _ _ _ _ hname => ?_⟩ <;> cases hname
  have hpath : LedgerPath twoWrites ⟨"/config/processed_files.json"⟩ := by
    intro i hdest
    cases i with
    | false => exact ⟨_, rfl⟩
    | true => exact absurd hdest (by decide)
  have hstem : TempStem "tmpabcdefgh" := by
    refine ⟨"abcdefgh", rfl, fun c hc => ?_, rfl⟩
    have hletters : tempLetters = "abcdefgh" ++ "ijklmnopqrstuvwxyz0123456789_" := rfl
    rw [hletters]
    exact List.mem_append_left _ hc
  have htemp : (twoWrites true).job.temp ⟨"/tv/tmpabcdefgh.tmp"⟩ := ⟨_, hstem, rfl⟩
  have htemp' : (twoWrites false).job.temp ⟨"/config/tmpabcdefgh.tmp"⟩ := ⟨_, hstem, rfl⟩
  have hstart : AtomicReplace.Run (fun i => (twoWrites i).job) True noFiles [] noFiles := .start
  have h₁ := hstart.step (.reserve true _ rfl htemp rfl)
  have h₂ := h₁.step (.reserve false _ rfl htemp' (by decide))
  have h₃ := h₂.step (.create true _ rfl (by decide))
  have h₄ := h₃.step (.truncate false _ 1 rfl (by decide))
  have h₅ := h₄.step (.close false _ 1 rfl)
  have h₆ := h₅.step (.crash true trivial)
  have hrun := h₆.step (.replace false _ 1 1 rfl (by decide))
  obtain ⟨hcontents, hloads, _⟩ := files_whole ⟨1000, id⟩ (by decide) hledger hready hrun
  refine ⟨_, hrun, hloads _ _ (fun hside => absurd hside.2 (by decide)) hpath rfl, ?_⟩
  rw [hcontents _ fun hside => absurd hside.1 ?_]
  · rfl
  · exact fun hstem => hstem.facts.2.1 (by decide)

end Runs

end Trezarr
