import Trezarr.Output.LedgerSqla
import Trezarr.Translate.NeverClobber
import Trezarr.Translate.Verdict

/-! Which of its own files Trezarr still finds in its ledger. -/
namespace Trezarr
open Text Rows Runs LawfulLedger LedgerProtocol

/-- The sources whose rows name an output. -/
def namedBy {L : Type} [LawfulLedger L] (ledger : L) (output : Str) : Set Str :=
  {key | ∃ entry, row? ledger key = some entry ∧ entry.outputPath = some output}

/-- A backend that finds an output by the set of the sources that name it. -/
class OutputLookup (L : Type) extends LawfulLedger L where
  Finds : Set Str → Prop
  finds_iff : ∀ {ledger : L} {output : Str},
    (∃ entry, checkByOutputPath ledger output = .ok (some entry)) ↔ Finds (namedBy ledger output)

/-- The first of the rows is as good as any. -/
instance : OutputLookup Ledger where
  Finds := Set.Nonempty
  finds_iff := by
    intro ledger output
    constructor
    · rintro ⟨entry, h⟩
      obtain ⟨houtput, key, hrow⟩ := byOutput_some h
      exact ⟨key, entry, hrow, houtput⟩
    · rintro ⟨key, entry, hrow, houtput⟩
      cases hfound : Ledger.checkByOutputPath ledger output with
      | none => exact absurd houtput (Ledger.checkByOutputPath_none.mp hfound key entry hrow)
      | some found => exact ⟨found, congrArg Except.ok hfound⟩

/-- A second row makes the query raise. -/
instance : OutputLookup LedgerSqla where
  Finds keys := ∃ key, keys = {key}
  finds_iff := by
    intro ledger output
    constructor
    · rintro ⟨entry, h⟩
      obtain ⟨houtput, key, hrow⟩ := byOutput_some h
      refine ⟨key, Set.eq_singleton_iff_unique_mem.mpr ⟨⟨entry, hrow, houtput⟩, ?_⟩⟩
      rintro key' ⟨entry', hrow', houtput'⟩
      have hentry : entry' = entry := unique_of_scalarOneOrNone h
        entry' (List.mem_of_find?_eq_some hrow') entry (List.mem_of_find?_eq_some hrow)
        (decide_eq_true houtput') (decide_eq_true houtput)
      rw [← LedgerSqla.row?_sourcePath hrow', ← LedgerSqla.row?_sourcePath hrow, hentry]
    · rintro ⟨key, hkeys⟩
      have hkey : key ∈ namedBy ledger output := hkeys ▸ rfl
      obtain ⟨entry, hrow, houtput⟩ := hkey
      have hunique : ∀ a ∈ ledger.processedFile, ∀ b ∈ ledger.processedFile,
          a.outputPath = some output → b.outputPath = some output → a = b := by
        intro a ha b hb hao hbo
        have hin : ∀ c ∈ ledger.processedFile, c.outputPath = some output → c.sourcePath = key := by
          intro c hc hco
          have hmem : c.sourcePath ∈ namedBy ledger output :=
            ⟨c, LedgerSqla.mem_iff_row?.mp hc, hco⟩
          rw [hkeys] at hmem
          exact hmem
        exact LedgerSqla.eq_of_sourcePath ha hb ((hin a ha hao).trans (hin b hb hbo).symm)
      cases hfound : ledger.processedFile.find? (fun e => e.outputPath = some output) with
      | none =>
        have hnone := List.find?_eq_none.mp hfound entry (List.mem_of_find?_eq_some hrow)
        exact absurd (decide_eq_true houtput) hnone
      | some found => exact ⟨found, hfound ▸ LedgerSqla.checkByOutputPath_ok hunique⟩

section Ownership

variable {L : Type} [OutputLookup L] {env : Env} {job : Job} {w w' : World L} {d q : Path}
  {run : Run L}

/-- Trezarr wrote what is there. -/
def Ours (fs : FileSystem) (d : Path) : Prop := ∃ f, fs.file? d = some f ∧ f.writer = .trezarr

/-- Every sidecar that is Trezarr's own is found by its path. -/
def Owned (w : World L) : Prop :=
  ∀ q, w.fs.entry q = q → Ours w.fs (viSidecarOf q) →
    ∃ entry, checkByOutputPath w.ledger (viSidecarOf q).str = .ok (some entry)

/-- The sources whose rows name the sidecar of a job once it has run. -/
def namedAfter (env : Env) (job : Job) (w : World L) : Set Str :=
  {key | if key = job.path.str then ¬ Shelves env w.fs job
    else key ∈ namedBy w.ledger job.dest.str}

/-- A sidecar that is or becomes Trezarr's own is still named, and so is every other name of the
entry that is replaced. -/
def KeepsOwnership (w : World L) : Event → Prop
  | .run env path => ∀ job, decisionTable env.contentHash w.fs w.ledger path = .ok (some job) →
    (Ours w.fs job.dest ∨ Delivers env w.fs job → OutputLookup.Finds L (namedAfter env job w)) ∧
    (Delivers env w.fs job → ∀ q, w.fs.entry q = q →
      w.fs.entry job.dest ∈ w.fs.trail (viSidecarOf q) → viSidecarOf q = job.dest ∨
        OutputLookup.Finds L (namedBy w.ledger (viSidecarOf q).str))
  | _ => True

/-- Rows name no sidecar but that of their source. -/
def RowsNamed (w : World L) : Prop :=
  ∀ key entry output, row? w.ledger key = some entry → entry.outputPath = some output →
    output = (viSidecarOf ⟨key⟩).str

theorem owned_iff : Owned w ↔ ∀ q, w.fs.entry q = q → Ours w.fs (viSidecarOf q) →
    OutputLookup.Finds L (namedBy w.ledger (viSidecarOf q).str) := by
  simp only [Owned, OutputLookup.finds_iff]

theorem namedBy_rowSet {entry : LedgerEntry} {output : Str} (h : RowSet entry w w') :
    namedBy w'.ledger output = {key | if key = entry.sourcePath then entry.outputPath = some output
      else key ∈ namedBy w.ledger output} := by
  ext key
  simp only [namedBy, Set.mem_ofPred_eq, h key]
  split
  next => simp
  next => rfl

/-- Only the sidecar of the job can have won or lost a name. -/
theorem namedBy_of_ne {entry : LedgerEntry} (h : RowSet entry w w') (hrows : RowsNamed w)
    (hsource : entry.sourcePath = job.path.str) (hdest : job.dest = viSidecarOf job.path)
    (houtput : ∀ output, entry.outputPath = some output → output = job.dest.str)
    (hne : d ≠ job.dest) : namedBy w'.ledger d.str = namedBy w.ledger d.str := by
  rw [namedBy_rowSet h]
  ext key
  simp only [Set.mem_ofPred_eq]
  split
  next hkey =>
    refine iff_of_false (fun hnew => hne (Path.eq_of_str (houtput _ hnew))) ?_
    rintro ⟨old, hold, hout⟩
    rw [hkey, hsource] at hold
    apply hne
    rw [hdest]
    exact Path.eq_of_str (hrows _ _ _ hold hout)
  next => rfl

theorem namedBy_dest {entry : LedgerEntry} (h : RowSet entry w w')
    (hsource : entry.sourcePath = job.path.str)
    (houtput : entry.outputPath = some job.dest.str ↔ ¬ Shelves env w.fs job) :
    namedBy w'.ledger job.dest.str = namedAfter env job w := by
  rw [namedBy_rowSet h]
  ext key
  simp only [namedAfter, Set.mem_ofPred_eq, hsource, houtput]

/-- What a run with a job does to the names of every sidecar. -/
theorem Aftermath.named (h : Aftermath env job w run) (hrows : RowsNamed w)
    (hdest : job.dest = viSidecarOf job.path) : namedBy run.world.ledger d.str =
      if d = job.dest then namedAfter env job w else namedBy w.ledger d.str := by
  have hnamed : ∀ entry : LedgerEntry, RowSet entry w run.world →
      entry.sourcePath = job.path.str →
      (∀ output, entry.outputPath = some output → output = job.dest.str) →
      (entry.outputPath = some job.dest.str ↔ ¬ Shelves env w.fs job) →
      namedBy run.world.ledger d.str =
        if d = job.dest then namedAfter env job w else namedBy w.ledger d.str := by
    intro entry hset hsource hout hshelves
    split
    next heq => rw [heq, namedBy_dest hset hsource hshelves]
    next hne => exact namedBy_of_ne hset hrows hsource hdest hout hne
  cases h with
  | broken _ hshelves hset =>
    exact hnamed _ hset rfl (fun _ hout => (Option.some.inj hout).symm)
      (iff_of_true rfl hshelves)
  | shelved hshelves _ entry hsource houtput _ hset =>
    refine hnamed entry hset hsource ?_ (iff_of_false ?_ fun hnot => hnot hshelves)
    · rw [houtput]
      exact fun _ => nofun
    · rw [houtput]
      exact nofun
  | delivered _ hshelves entry hsource houtput _ _ hset =>
    refine hnamed entry hset hsource ?_ (iff_of_true houtput hshelves)
    rw [houtput]
    exact fun _ hout => (Option.some.inj hout).symm

theorem ours_replace {fs : FileSystem} {content : Bytes} :
    Ours (fs.replace q ⟨content, .trezarr, none⟩) d ↔ Ours fs d ∨ fs.entry q ∈ fs.trail d := by
  unfold Ours
  rw [FileSystem.file?_replace]
  split
  next hmem => exact iff_of_true ⟨_, rfl, rfl⟩ (.inr hmem)
  next hmem => exact (or_iff_left hmem).symm

/-- What it does to the files, and that every entry stays an entry. -/
theorem Aftermath.ours (h : Aftermath env job w run) :
    (∀ q, run.world.fs.entry q = w.fs.entry q) ∧ ∀ d, Ours run.world.fs d ↔
      Ours w.fs d ∨ Delivers env w.fs job ∧ w.fs.entry job.dest ∈ w.fs.trail d := by
  cases h with
  | broken hdelivers _ _ hfs => simp [hfs, hdelivers]
  | shelved _ hdelivers _ _ _ _ _ hfs => simp [hfs, hdelivers]
  | delivered hdelivers _ _ _ _ _ _ _ content hfs =>
    rw [hfs]
    refine ⟨fun q => Links.entry_settle _ _ _, fun d => ?_⟩
    rw [ours_replace, and_iff_right hdelivers]

theorem owned_run (env : Env) (path : Path) (hrows : RowsNamed w) (howned : Owned w) :
    Owned (w.step (.run env path)) ↔ KeepsOwnership w (.run env path) := by
  show Owned (translateFile env path w).world ↔ _
  unfold translateFile KeepsOwnership
  split
  next err hjob =>
    refine iff_of_true howned fun job hjob' => ?_
    cases hjob.symm.trans hjob'
  next hjob =>
    refine iff_of_true howned fun job hjob' => ?_
    cases hjob.symm.trans hjob'
  next job hjob =>
    obtain ⟨hpath, hdest, _⟩ := decisionTable_job hjob
    rw [deriveViSidecarPath_eq, ← hpath] at hdest
    have hself : w.fs.entry job.path = job.path := by
      rw [hpath]
      exact Links.entry_of_mem (w.fs.resolve_mem path)
    have hafter : Aftermath env job w (start env job w) := aftermath_start
    obtain ⟨hentry, hours⟩ := hafter.ours
    simp only [owned_iff, hentry, hours, hafter.named hrows hdest]
    rw [owned_iff] at howned
    constructor
    · rintro h job' hjob'
      cases Option.some.inj (Except.ok.inj (hjob.symm.trans hjob'))
      refine ⟨fun hdestOurs => ?_, fun hdelivers q hq hmem => ?_⟩
      · have hfinds := h job.path hself
        rw [← hdest, if_pos rfl] at hfinds
        exact hfinds (hdestOurs.imp_right fun hdelivers => ⟨hdelivers, w.fs.entry_mem job.dest⟩)
      · by_cases heq : viSidecarOf q = job.dest
        · exact .inl heq
        · have hfinds := h q hq (.inr ⟨hdelivers, hmem⟩)
          rw [if_neg heq] at hfinds
          exact .inr hfinds
    · intro h q hq hq'
      obtain ⟨hfirst, hothers⟩ := h job hjob
      split
      next heq =>
        rw [heq] at hq'
        exact hfirst (hq'.imp_right And.left)
      next hne =>
        rcases hq' with hold | ⟨hdelivers, hmem⟩
        · exact howned q hq hold
        · exact (hothers hdelivers q hq hmem).resolve_left hne

theorem ours_put {fs : FileSystem} {f : Option File} (hf : ∀ g, f = some g → g.writer = .other)
    (h : Ours (fs.put q f) d) : Ours fs d := by
  obtain ⟨g, hg, hours⟩ := h
  rw [FileSystem.file?_put] at hg
  split at hg
  next => cases (hf g hg).symm.trans hours
  next => exact ⟨g, hg, hours⟩

theorem owned_step (e : Event) (hrows : RowsNamed w) (howned : Owned w) :
    Owned (w.step e) ↔ KeepsOwnership w e := by
  cases e with
  | run env path => exact owned_run env path hrows howned
  | write path content readError =>
    refine iff_of_true (fun q hq hours => howned q hq (ours_put ?_ hours)) trivial
    rintro g ⟨⟩
    rfl
  | delete path =>
    refine iff_of_true (fun q hq hours => howned q hq (ours_put ?_ hours)) trivial
    rintro g ⟨⟩

theorem rowsNamed_step (w : World L) (e : Event) (hrows : RowsNamed w) : RowsNamed (w.step e) := by
  cases e with
  | run env path =>
    show RowsNamed (translateFile env path w).world
    rcases translateFile_cases env path w with hsame | ⟨job, hjob, hrecorded, _⟩
    · rwa [hsame]
    · obtain ⟨hpath, hdest, _⟩ := decisionTable_job hjob
      intro key entry output hrow hout
      rcases hrecorded key entry hrow with hold | ⟨hkey, hnew⟩
      · exact hrows key entry output hold hout
      · rw [hnew output hout, hkey, hdest, deriveViSidecarPath_eq, hpath]
  | write path content readError => exact hrows
  | delete path => exact hrows

end Ownership

/-- Trezarr finds every sidecar of its own in every state of a run just when it starts without
one and no step takes the last name, or a second one, where a name is needed. -/
theorem ownership_kept (L : Type) [OutputLookup L] (fs : FileSystem)
    (artifacts : Path → Option Artifact) (events : List Event) :
    (∀ before after, events = before ++ after →
      Owned (run World.step (World.initial L fs artifacts) before)) ↔
    Owned (World.initial L fs artifacts) ∧
      Along World.step KeepsOwnership (World.initial L fs artifacts) events := by
  apply everywhere_iff rowsNamed_step fun w e => owned_step e
  intro key entry output hrow
  cases (row?_empty key).symm.trans hrow

/-- An endpoint that answers one line, whatever it is asked. -/
def answering (reply : Str) : Env :=
  { endpointDown with
    contentHash := fun bytes => if bytes = [] then "e3b0" else [Char.ofNat bytes.length]
    llm := ⟨fun _ _ _ => .ok reply⟩ }

/-- A translation, a new version of its source, and a run that ends in quarantine. -/
def newVersion : List Event :=
  [.run (answering "[1] Tạm biệt.") ⟨"/tv/E01.en.srt"⟩,
    .write ⟨"/tv/E01.en.srt"⟩ (encodeUtf8 "1\n00:00:01,000 --> 00:00:02,000\nHello.\n") none,
    .run (answering "Tạm biệt.") ⟨"/tv/E01.en.srt"⟩]

theorem quarantine_forgets : ¬ Owned (run World.step
    (World.initial LedgerSqla oneEpisode.fs oneEpisode.artifacts) newVersion) := by
  intro h
  have hend : ((run World.step (World.initial LedgerSqla oneEpisode.fs oneEpisode.artifacts)
        newVersion).fs.file? ⟨"/tv/E01.vi.srt"⟩).map File.writer = some .trezarr ∧
      (run World.step (World.initial LedgerSqla oneEpisode.fs oneEpisode.artifacts)
        newVersion).fs.entry ⟨"/tv/E01.en.srt"⟩ = ⟨"/tv/E01.en.srt"⟩ ∧
      checkByOutputPath (run World.step (World.initial LedgerSqla oneEpisode.fs
        oneEpisode.artifacts) newVersion).ledger "/tv/E01.vi.srt" = .ok none := by
    decide +kernel
  obtain ⟨hours, hentry, hlookup⟩ := hend
  obtain ⟨f, hf, hwriter⟩ := Option.map_eq_some_iff.mp hours
  obtain ⟨entry, hfound⟩ := h ⟨"/tv/E01.en.srt"⟩ hentry ⟨f, hf, hwriter⟩
  cases hlookup.symm.trans hfound

end Trezarr
