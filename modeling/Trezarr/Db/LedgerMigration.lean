import Mathlib.Data.List.ReduceOption
import Trezarr.Db.Insertion
import Trezarr.Subtitles.Codec

/-! The migration as a whole: what every run of it owes to the file and to the table. -/
namespace Trezarr
open Text Json Fallible Runs

/-- The values of the file's object, which are the ledger's entries. -/
def legacyEntries (rt : Runtime) (content : Bytes) : List Json :=
  match readLedger rt content with
  | .ok (some (.obj items)) => items.map Prod.snd
  | _ => []

/-- An object with a known status whose required fields are strings; `output_path` may be null. -/
def ValidEntry (value : Json) (sourcePath : List CodePoint) : Prop :=
  ∃ members status hash, value = .obj members ∧
    field? "source_path" members = some (.str sourcePath) ∧
    (field? "output_path" members = some .null ∨
      ∃ output, field? "output_path" members = some (.str output)) ∧
    field? "status" members = some (.str status) ∧ isKnownStatus (.str status) = .ok true ∧
    field? "content_hash" members = some (.str hash)

def freshMigration (content : Bytes) (ledger : LedgerSqla) : Migration :=
  ⟨{ json := some content }, ledger, .starting⟩

/-- A step on a file system that works, or a crash. -/
def Steady (event : MigrationEvent) : Prop := event = .advance {} ∨ event = .restart

/-- What holds wherever a run with crashes has got to; three more steps complete it. -/
structure Migrates (rt : Runtime) (content : Bytes) (ledger : LedgerSqla) (m : Migration) :
    Prop where
  quiet : ∀ e, m.stage ≠ .ended (.error e)
  kept : ledger.processedFile ⊆ m.ledger.processedFile
  migrated : m.stage = .ended (.ok ()) → ∀ value ∈ legacyEntries rt content, ∀ sourcePath,
    ValidEntry value sourcePath →
    ∃! row, row ∈ m.ledger.processedFile ∧ points row.sourcePath = sourcePath
  completes : (run (migrationStep rt) m (List.replicate 3 (.advance {}))).stage = .ended (.ok ())

def AlwaysMigrates (rt : Runtime) (content : Bytes) (ledger : LedgerSqla) : Prop :=
  ∀ events, (∀ event ∈ events, Steady event) →
    Migrates rt content ledger (run (migrationStep rt) (freshMigration content ledger) events)

/-- UTF-8, with nothing in it at which the reader fails other than by its own error. -/
def Readable (rt : Runtime) (content : Bytes) : Prop :=
  ∃ text, decodeUtf8? content = some text ∧
    ∀ e, Json.loads rt.recursionLimit (universalNewlines text) = .error e → e = .decode

/-- The status of an entry that has its required fields is neither a list nor an object. -/
def HashableStatus (value : Json) : Prop :=
  ∀ members entry, value = .obj members → legacyEntry? members = some entry →
    (∀ items, entry.status ≠ .arr items) ∧ ∀ fields, entry.status ≠ .obj fields

def knownEntry? (value : Json) : Option LegacyEntry := (acceptEntry value).toOption.join

def knownEntries (rt : Runtime) (content : Bytes) : List LegacyEntry :=
  (legacyEntries rt content).filterMap knownEntry?

structure MigratesWhen (rt : Runtime) (content : Bytes) (ledger : LedgerSqla) : Prop where
  readable : Readable rt content
  hashable : ∀ value ∈ legacyEntries rt content, HashableStatus value
  insertable : Insertable rt ledger (knownEntries rt content)

variable {rt : Runtime} {content : Bytes} {ledger after : LedgerSqla} {m : Migration}
  {value : Json} {values : List Json} {entry : LegacyEntry} {entries : List LegacyEntry}
  {path : Str} {sourcePath : List CodePoint} {event : MigrationEvent}

section Accepting

theorem readLedger_ok_iff : (∃ raw, readLedger rt content = .ok raw) ↔ Readable rt content := by
  unfold readLedger Readable
  cases hdecode : decodeUtf8? content with
  | none => simp
  | some text =>
    simp only [Option.some.injEq, exists_eq_left']
    split
    next raw hraw =>
      rw [hraw]
      exact ⟨fun _ e he => (nomatch he), fun _ => ⟨_, rfl⟩⟩
    next hraw =>
      rw [hraw]
      exact ⟨fun _ e he => (Except.error.inj he).symm, fun _ => ⟨_, rfl⟩⟩
    next e hne hraw =>
      rw [hraw]
      constructor
      · rintro ⟨raw, h⟩
        cases h
      · intro h
        exact absurd (h e rfl) hne

theorem isKnownStatus_ok_iff {status : Json} : (∃ b, isKnownStatus status = .ok b) ↔
    (∀ items, status ≠ .arr items) ∧ ∀ fields, status ≠ .obj fields := by
  cases status <;> simp [isKnownStatus]

theorem acceptEntry_ok_iff :
    (∃ accepted, acceptEntry value = .ok accepted) ↔ HashableStatus value := by
  unfold acceptEntry HashableStatus
  split
  next members =>
    cases hentry : legacyEntry? members with
    | none =>
      refine ⟨fun _ members' entry hobj hsome => ?_, fun _ => ⟨_, rfl⟩⟩
      cases hobj
      rw [hentry] at hsome
      cases hsome
    | some entry =>
      constructor
      · rintro ⟨accepted, h⟩ members' entry' hobj hsome
        cases hobj
        rw [hentry] at hsome
        cases hsome
        obtain ⟨b, hb, -⟩ := bind_ok h
        exact isKnownStatus_ok_iff.mp ⟨b, hb⟩
      · intro h
        obtain ⟨b, hb⟩ := isKnownStatus_ok_iff.mpr (h members entry rfl hentry)
        dsimp only
        rw [hb, ok_bind]
        cases b <;> exact ⟨_, rfl⟩
  next hobj =>
    refine ⟨fun _ members entry h => absurd h (hobj members), fun _ => ⟨_, rfl⟩⟩

/-- An accepted entry comes from an object that has the required fields. -/
theorem acceptEntry_some (h : acceptEntry value = .ok (some entry)) :
    ∃ members, value = .obj members ∧ legacyEntry? members = some entry ∧ Known entry := by
  unfold acceptEntry at h
  split at h
  next members =>
    cases hentry : legacyEntry? members with
    | none =>
      rw [hentry] at h
      cases h
    | some entry' =>
      rw [hentry] at h
      obtain ⟨b, hb, hif⟩ := bind_ok h
      cases b with
      | false => cases hif
      | true =>
        cases hif
        exact ⟨members, rfl, hentry, hb⟩
  next => cases h

theorem acceptEntry_of_known {members : List (List CodePoint × Json)}
    (hentry : legacyEntry? members = some entry) (hknown : Known entry) :
    acceptEntry (.obj members) = .ok (some entry) := by
  unfold acceptEntry
  dsimp only
  rw [hentry]
  dsimp only
  rw [show isKnownStatus entry.status = .ok true from hknown]
  rfl

theorem knownEntry?_eq_some_iff :
    knownEntry? value = some entry ↔ acceptEntry value = .ok (some entry) := by
  unfold knownEntry?
  cases acceptEntry value with
  | error e => exact ⟨fun h => (nomatch h), fun h => (nomatch h)⟩
  | ok accepted =>
    show accepted = some entry ↔ _
    exact ⟨congrArg Except.ok, Except.ok.inj⟩

theorem knownEntries_known (h : entry ∈ knownEntries rt content) : Known entry := by
  obtain ⟨value, -, hvalue⟩ := List.mem_filterMap.mp h
  obtain ⟨members, -, -, hknown⟩ := acceptEntry_some (knownEntry?_eq_some_iff.mp hvalue)
  exact hknown

theorem acceptEntries_ok (h : acceptEntries values = .ok entries) :
    (∀ value ∈ values, HashableStatus value) ∧ entries = values.filterMap knownEntry? := by
  obtain ⟨accepted, hmap, rfl⟩ := map_ok h
  refine ⟨fun value hvalue => acceptEntry_ok_iff.mp (ok_of_mapM hmap value hvalue), ?_⟩
  have hall := mapM_ok hmap
  clear h hmap
  induction hall with
  | nil => rfl
  | @cons value accepted values rest hvalue _ ih =>
    have hknown : knownEntry? value = accepted := by
      unfold knownEntry?
      rw [hvalue]
      rfl
    cases accepted with
    | none => rw [List.filterMap_cons_none hknown, List.reduceOption_cons_of_none, ih]
    | some entry => rw [List.filterMap_cons_some hknown, List.reduceOption_cons_of_some, ih]

theorem acceptEntries_of_hashable (h : ∀ value ∈ values, HashableStatus value) :
    acceptEntries values = .ok (values.filterMap knownEntry?) := by
  obtain ⟨accepted, hmap⟩ :=
    mapM_of_forall fun value hvalue => acceptEntry_ok_iff.mpr (h value hvalue)
  have hok : acceptEntries values = .ok accepted.reduceOption := by
    unfold acceptEntries
    rw [hmap]
    rfl
  rw [hok, (acceptEntries_ok hok).2]

theorem ValidEntry.known (h : ValidEntry value sourcePath) :
    ∃ entry, knownEntry? value = some entry ∧ entry.sourcePath = .str sourcePath := by
  obtain ⟨members, status, hash, rfl, hpath, houtput, hstatus, hknown, hhash⟩ := h
  obtain ⟨output, houtput⟩ : ∃ output, field? "output_path" members = some output := by
    rcases houtput with h | ⟨output, h⟩
    · exact ⟨_, h⟩
    · exact ⟨_, h⟩
  have hentry : legacyEntry? members = some
      { sourcePath := .str sourcePath, outputPath := output, status := .str status,
        contentHash := .str hash
        seriesId := (field? "series_id" members).getD .null
        sourceLang := (field? "source_lang" members).getD .null
        episodeKey := (field? "episode_key" members).getD .null
        translatedAt := (field? "translated_at" members).getD .null
        quarantinePath := (field? "quarantine_path" members).getD .null } := by
    unfold legacyEntry?
    rw [hpath, houtput, hstatus, hhash]
    rfl
  exact ⟨_, knownEntry?_eq_some_iff.mpr (acceptEntry_of_known hentry hknown), rfl⟩

end Accepting

section Plans

theorem planFor_of_readable (hreadable : Readable rt content)
    (hhashable : ∀ value ∈ legacyEntries rt content, HashableStatus value) :
    (∃ bak, planFor rt content = .parking bak ∧ knownEntries rt content = []) ∨
      planFor rt content = .inserting (knownEntries rt content) := by
  obtain ⟨raw, hraw⟩ := readLedger_ok_iff.mpr hreadable
  unfold planFor knownEntries
  unfold legacyEntries at hhashable ⊢
  rw [hraw] at hhashable ⊢
  match raw with
  | some (.obj items) =>
    dsimp only at hhashable ⊢
    rw [acceptEntries_of_hashable hhashable]
    cases hentries : (items.map Prod.snd).filterMap knownEntry? with
    | nil => exact .inl ⟨_, rfl, rfl⟩
    | cons entry entries => exact .inr rfl
  | none | some .null | some (.bool _) | some (.int _) | some (.real _) | some (.str _)
  | some (.arr _) => exact .inl ⟨_, rfl, rfl⟩

theorem readable_of_planFor (h : ∀ e, planFor rt content ≠ .ended (.error e)) :
    Readable rt content ∧ ∀ value ∈ legacyEntries rt content, HashableStatus value := by
  unfold planFor at h
  unfold legacyEntries
  cases hread : readLedger rt content with
  | error e =>
    rw [hread] at h
    exact absurd rfl (h e)
  | ok raw =>
    refine ⟨readLedger_ok_iff.mp ⟨raw, hread⟩, ?_⟩
    rw [hread] at h
    match raw with
    | some (.obj items) =>
      dsimp only at h ⊢
      cases haccept : acceptEntries (items.map Prod.snd) with
      | error e =>
        rw [haccept] at h
        exact absurd rfl (h e)
      | ok entries => exact (acceptEntries_ok haccept).1
    | none | some .null | some (.bool _) | some (.int _) | some (.real _) | some (.str _)
    | some (.arr _) => exact fun value hvalue => absurd hvalue List.not_mem_nil

end Plans

section Runs

/-- How far a run with crashes has got: the table is one of two until the commit, the other after. -/
inductive Underway (rt : Runtime) (content : Bytes) (ledger after : LedgerSqla) : Migration → Prop
  | starting (now : LedgerSqla) (hnow : now = ledger ∨ now = after) :
      Underway rt content ledger after ⟨{ json := some content }, now, .starting⟩
  | planned (now : LedgerSqla) (hnow : now = ledger ∨ now = after) :
      Underway rt content ledger after ⟨{ json := some content }, now, planFor rt content⟩
  | committed : Underway rt content ledger after ⟨{ json := some content }, after, .committed⟩
  | moved (files : LegacyFiles) (stage : MigrationStage)
      (hfiles : files.migratedBak.isSome ∨ files.corruptBak.isSome)
      (hstage : stage = .starting ∨ stage = .ended (.ok ())) :
      Underway rt content ledger after ⟨files, after, stage⟩

/-- What the file asks for, with the table that it leads to. -/
def Settled (rt : Runtime) (content : Bytes) (ledger after : LedgerSqla) : Prop :=
  (∃ bak, planFor rt content = .parking bak ∧ after = ledger) ∨
    ∃ entries, planFor rt content = .inserting entries ∧
      migrateEntries rt ledger entries = .ok after

theorem begin_of_bak {calls : FileCalls} {files : LegacyFiles}
    (h : files.migratedBak.isSome ∨ files.corruptBak.isSome) :
    begin rt calls files = .ended (.ok ()) := by
  unfold begin
  rcases h with h | h
  · rw [if_pos h]
  · rw [if_pos h, ite_self]

theorem replace_bak (bak : Bak) :
    ((LegacyFiles.replace { json := some content } bak).migratedBak.isSome ∨
      (LegacyFiles.replace { json := some content } bak).corruptBak.isSome) := by
  cases bak
  · exact .inl rfl
  · exact .inr rfl

theorem Underway.advance (hsettled : Settled rt content ledger after)
    (h : Underway rt content ledger after m) :
    Underway rt content ledger after (m.advance rt {}) := by
  cases h with
  | starting now hnow => exact .planned now hnow
  | planned now hnow =>
    unfold Migration.advance
    rcases hsettled with ⟨bak, hplan, rfl⟩ | ⟨entries, hplan, hmigrate⟩
    · have hnow' : now = after := hnow.elim id id
      subst hnow'
      rw [hplan]
      exact .moved _ _ (replace_bak bak) (.inr rfl)
    · have hagain : migrateEntries rt now entries = .ok after := by
        rcases hnow with rfl | rfl
        · exact hmigrate
        · exact migrateEntries_idempotent hmigrate
      rw [hplan]
      dsimp only
      rw [hagain]
      exact .committed
  | committed => exact .moved _ _ (.inl rfl) (.inr rfl)
  | moved files stage hfiles hstage =>
    rcases hstage with rfl | rfl
    · refine .moved _ _ hfiles (.inr ?_)
      exact begin_of_bak hfiles
    · exact .moved _ _ hfiles (.inr rfl)

theorem Underway.restart (h : Underway rt content ledger after m) :
    Underway rt content ledger after { m with stage := .starting } := by
  cases h with
  | starting now hnow => exact .starting now hnow
  | planned now hnow => exact .starting now hnow
  | committed => exact .starting after (.inr rfl)
  | moved files stage hfiles hstage => exact .moved files _ hfiles (.inl rfl)

theorem Underway.step (hsettled : Settled rt content ledger after)
    (h : Underway rt content ledger after m) (hevent : Steady event) :
    Underway rt content ledger after (migrationStep rt m event) := by
  rcases hevent with rfl | rfl
  · exact h.advance hsettled
  · exact h.restart

theorem Underway.of_run (hsettled : Settled rt content ledger after) {events : List MigrationEvent}
    (hevents : ∀ event ∈ events, Steady event) :
    Underway rt content ledger after
      (run (migrationStep rt) (freshMigration content ledger) events) := by
  have halong : Along (migrationStep rt) (fun _ event => Steady event)
      (freshMigration content ledger) events :=
    along_mem.mono fun _ event hevent => hevents event hevent
  exact invariant_run (fun _ _ h hevent => h.step hsettled hevent) (.starting ledger (.inl rfl)) halong

/-- How many steps are left at most. -/
def MigrationStage.left : MigrationStage → ℕ
  | .starting => 3
  | .parking _ => 2
  | .inserting _ => 2
  | .committed => 1
  | .ended _ => 0

theorem left_le (stage : MigrationStage) : stage.left ≤ 3 := by
  unfold MigrationStage.left
  split <;> omega

theorem left_planFor : (planFor rt content).left ≤ 2 := by
  unfold planFor
  split
  next => exact Nat.zero_le _
  next => exact le_rfl
  next =>
    split
    · exact Nat.zero_le _
    · exact le_rfl
    · exact le_rfl
  next => exact le_rfl

theorem left_begin (calls : FileCalls) (files : LegacyFiles) : (begin rt calls files).left ≤ 2 := by
  unfold begin
  split
  · exact Nat.zero_le _
  split
  · exact Nat.zero_le _
  split
  · exact Nat.zero_le _
  split
  · exact Nat.zero_le _
  split
  · exact left_planFor
  · exact le_rfl

theorem left_advance (m : Migration) (calls : FileCalls) :
    (m.advance rt calls).stage.left ≤ m.stage.left - 1 := by
  unfold Migration.advance
  split
  next h =>
    rw [h]
    exact left_begin calls m.files
  next h => split <;> exact Nat.zero_le _
  next h =>
    rw [h]
    split
    · exact le_rfl
    · exact Nat.zero_le _
  next h => split <;> exact Nat.zero_le _
  next result h =>
    rw [h]
    exact Nat.zero_le _

theorem Settled.planFor_ne_ended (h : Settled rt content ledger after)
    (result : Except MigrationError Unit) : planFor rt content ≠ .ended result := by
  rcases h with ⟨bak, hplan, -⟩ | ⟨entries, hplan, -⟩
  · rw [hplan]
    exact fun h => nomatch h
  · rw [hplan]
    exact fun h => nomatch h

theorem Underway.ended_ok (hsettled : Settled rt content ledger after)
    (h : Underway rt content ledger after m) {result : Except MigrationError Unit}
    (hended : m.stage = .ended result) : result = .ok () ∧ m.ledger = after := by
  cases h with
  | starting now hnow => cases hended
  | planned now hnow => exact absurd hended (hsettled.planFor_ne_ended result)
  | committed => cases hended
  | moved files stage hfiles hstage =>
    rcases hstage with rfl | rfl
    · cases hended
    · cases hended
      exact ⟨rfl, rfl⟩

theorem Underway.completes (hsettled : Settled rt content ledger after) :
    ∀ n m, Underway rt content ledger after m → m.stage.left ≤ n →
      (run (migrationStep rt) m (List.replicate n (.advance {}))).stage = .ended (.ok ())
  | 0, m, h, hleft => by
    cases hstage : m.stage with
    | ended result =>
      rw [(h.ended_ok hsettled hstage).1] at hstage
      exact hstage
    | starting | parking bak | inserting entries | committed =>
      rw [hstage] at hleft
      cases hleft
  | n + 1, m, h, hleft => by
    have hnext : (migrationStep rt m (.advance {})).stage.left ≤ m.stage.left - 1 :=
      left_advance m {}
    exact Underway.completes hsettled n _ (h.advance hsettled) (by omega)

theorem Underway.kept (hrows : ledger.processedFile ⊆ after.processedFile)
    (h : Underway rt content ledger after m) : ledger.processedFile ⊆ m.ledger.processedFile := by
  cases h with
  | starting now hnow | planned now hnow =>
    rcases hnow with rfl | rfl
    · exact List.Subset.refl _
    · exact hrows
  | committed => exact hrows
  | moved files stage hfiles hstage => exact hrows

/-- The constraint makes the row the only one. -/
theorem existsUnique_row (hpresent : ∀ entry ∈ knownEntries rt content, Present rt after entry)
    (hvalue : value ∈ legacyEntries rt content) (hvalid : ValidEntry value sourcePath) :
    ∃! row, row ∈ after.processedFile ∧ points row.sourcePath = sourcePath := by
  obtain ⟨entry, hentry, hsource⟩ := hvalid.known
  obtain ⟨path, hpath, hmem⟩ := hpresent entry (List.mem_filterMap.mpr ⟨value, hvalue, hentry⟩)
  have htext : str? sourcePath = some path := by
    unfold StoredAt at hpath
    rw [hsource, column] at hpath
    split at hpath
    next text htext => rw [htext, Option.some.inj (Except.ok.inj hpath)]
    next => cases hpath
  obtain ⟨row, hrow, rfl⟩ := List.mem_map.mp hmem
  refine ⟨row, ⟨hrow, str?_eq_some_iff.mp htext⟩, ?_⟩
  rintro row' ⟨hrow', hpoints⟩
  have hsame : some row'.sourcePath = some row.sourcePath :=
    (str?_eq_some_iff.mpr hpoints).symm.trans htext
  exact LedgerSqla.eq_of_sourcePath hrow' hrow (Option.some.inj hsame)

theorem AlwaysMigrates.planFor_ne (h : AlwaysMigrates rt content ledger) (e : MigrationError) :
    planFor rt content ≠ .ended (.error e) :=
  (h [.advance {}] fun _ he => .inl (List.mem_singleton.mp he)).quiet e

/-- The first two steps without a crash show what may be raised. -/
theorem AlwaysMigrates.when (h : AlwaysMigrates rt content ledger) :
    MigratesWhen rt content ledger := by
  obtain ⟨hreadable, hhashable⟩ := readable_of_planFor h.planFor_ne
  refine ⟨hreadable, hhashable, (migrateEntries_ok_iff fun _ => knownEntries_known).mp ?_⟩
  rcases planFor_of_readable hreadable hhashable with ⟨bak, -, hnil⟩ | hplan
  · rw [hnil]
    exact ⟨ledger, rfl⟩
  · have hinserted := (h [.advance {}, .advance {}] fun event he => .inl (by simpa using he)).quiet
    cases hmigrate : migrateEntries rt ledger (knownEntries rt content) with
    | ok after => exact ⟨after, rfl⟩
    | error e =>
      refine absurd ?_ (hinserted e)
      show (Migration.advance rt {} ⟨{ json := some content }, ledger, planFor rt content⟩).stage = _
      rw [hplan]
      unfold Migration.advance
      dsimp only
      rw [hmigrate]

theorem MigratesWhen.settled (h : MigratesWhen rt content ledger) :
    ∃ after, Settled rt content ledger after ∧
      migrateEntries rt ledger (knownEntries rt content) = .ok after := by
  obtain ⟨after, hafter⟩ := (migrateEntries_ok_iff fun _ => knownEntries_known).mpr h.insertable
  refine ⟨after, ?_, hafter⟩
  rcases planFor_of_readable h.readable h.hashable with ⟨bak, hplan, hnil⟩ | hplan
  · rw [hnil] at hafter
    exact .inl ⟨bak, hplan, (Except.ok.inj hafter).symm⟩
  · exact .inr ⟨_, hplan, hafter⟩

/-- Whatever the file holds and wherever a run crashes, just these files reach the table whole. -/
theorem migration_iff (rt : Runtime) (content : Bytes) (ledger : LedgerSqla) :
    AlwaysMigrates rt content ledger ↔ MigratesWhen rt content ledger := by
  refine ⟨AlwaysMigrates.when, fun h events hevents => ?_⟩
  obtain ⟨after, hsettled, hafter⟩ := h.settled
  obtain ⟨hrows, hpresent⟩ := migrateEntries_rows hafter
  have hunderway := Underway.of_run hsettled hevents
  refine ⟨fun e hended => ?_, hunderway.kept hrows, fun hended value hvalue sourcePath hvalid => ?_,
    Underway.completes hsettled 3 _ hunderway ?_⟩
  · cases (hunderway.ended_ok hsettled hended).1
  · rw [(hunderway.ended_ok hsettled hended).2]
    exact existsUnique_row hpresent hvalue hvalid
  · exact left_le _

end Runs

section ListStatus

/-- An entry whose status is a list stands before a valid one. -/
def listStatus : Str :=
  ("\x7b\"a\":\x7b\"source_path\":\"a\",\"output_path\":null,\"status\":[],\"content_hash\":\"0\"\x7d," : Str) ++
    ("\"b\":\x7b\"source_path\":\"b\",\"output_path\":null,\"status\":\"done\",\"content_hash\":\"1\"\x7d\x7d" : Str)

def pythonRuntime : Runtime := ⟨1000, id⟩

set_option maxRecDepth 20000 in
theorem planFor_listStatus :
    planFor pythonRuntime (encodeUtf8 listStatus) = .ended (.error .unhashableStatus) := by
  unfold planFor readLedger
  rw [decodeUtf8?_encodeUtf8]
  rfl

theorem list_status_raises : ¬ AlwaysMigrates pythonRuntime (encodeUtf8 listStatus) .empty :=
  fun h => h.planFor_ne .unhashableStatus planFor_listStatus

end ListStatus

end Trezarr
