import Trezarr.Lib.LockTable
import Trezarr.Web.Jobs

/-! The locks of the series: the jobs take them by the id of the service, the endpoints by the id of
the row. -/
namespace Trezarr.Web
open Text Runs

/-- The endpoints that write to a Bible. -/
inductive Endpoint
  | patchCharacter
  | addCharacter
  | patchAddressMap
  | addAddressPair
  | deleteAddressMap
  | patchTerm
  | addTerm
  | deleteTermRoute
  | patchSeriesRegister
  | patchSeriesOverrides
  deriving DecidableEq, Repr

/-- Those that go through `get_series_lock`. -/
def Endpoint.locks : Endpoint → Bool
  | .patchCharacter | .addCharacter | .patchAddressMap | .patchTerm | .patchSeriesRegister
  | .patchSeriesOverrides => true
  | .addAddressPair | .deleteAddressMap | .addTerm | .deleteTermRoute => false

/-- A request to an endpoint, with the id in its path. -/
structure BibleRequest where
  number : ℕ
  endpoint : Endpoint
  seriesId : ℤ
  deriving DecidableEq, Repr

def BibleRequest.lockKey (request : BibleRequest) : Option ℤ :=
  if request.endpoint.locks then some request.seriesId else none

/-- Jobs without a series share one key. -/
def Job.lockKey (job : Job) : ℤ := job.seriesId.getD (-1)

/-- The series a job translates for: a job without a snapshot is translated without a Bible. -/
def Job.series (job : Job) : Option (Str × ℤ) :=
  job.mediaItemJson.map fun item => (orElseText item.arrKind "sonarr", item.seriesId.getD 0)

/-- A holder of a lock: an execution of a job, or a request. -/
inductive Party
  | execution (job : Job)
  | handler (request : BibleRequest)
  deriving DecidableEq, Repr

def Party.lockKey : Party → Option ℤ
  | .execution job => some job.lockKey
  | .handler request => request.lockKey

/-- The request writes to the row of the job's series. -/
def SameSeries (rows : Table Series) (job : Job) (request : BibleRequest) : Prop :=
  ∃ row ∈ rows.rows, (row.id : ℤ) = request.seriesId ∧ row.arrInstance = "default" ∧
    job.series = some (row.arrKind, row.arrSeriesId)

/-- Both jobs have a series, and not the same. -/
def OtherSeries (job job' : Job) : Prop :=
  job.series ≠ none ∧ job'.series ≠ none ∧ job.series ≠ job'.series

/-- One lock for a series: in every order of steps no request of a series writes while one of its
jobs translates, and the jobs of two series do not hold each other up. -/
structure BibleExclusion (rows : Table Series) (jobs : List Job) (requests : List BibleRequest) :
    Prop where
  oneLock : ∀ job ∈ jobs, ∀ request ∈ requests, SameSeries rows job request →
    request.lockKey = some job.lockKey
  excluded : ∀ ops, ∀ job ∈ jobs, ∀ request ∈ requests, SameSeries rows job request →
    ¬ (.execution job ∈ (run (LockTable.step Party.lockKey) LockTable.empty ops).inside ∧
      .handler request ∈ (run (LockTable.step Party.lockKey) LockTable.empty ops).inside)
  apart : ∀ job ∈ jobs, ∀ job' ∈ jobs, OtherSeries job job' → job.lockKey ≠ job'.lockKey

/-- The request goes to a locked endpoint, and the row's id is the one the job knows. -/
def OneKey (job : Job) (request : BibleRequest) : Prop :=
  request.endpoint.locks = true ∧ request.seriesId = job.seriesId.getD (-1)

variable {rows : Table Series} {jobs : List Job} {requests : List BibleRequest} {job job' : Job}
  {request : BibleRequest}

theorem lockKey_eq_iff : request.lockKey = some job.lockKey ↔ OneKey job request := by
  unfold BibleRequest.lockKey OneKey Job.lockKey
  split
  · next hlocks => simp [hlocks]
  · next hlocks => simp [hlocks]

/-- A request and a job of its series, both of those at hand. -/
def Conflict (rows : Table Series) (jobs : List Job) (requests : List BibleRequest) :
    Party → Party → Prop
  | .execution job, .handler request => job ∈ jobs ∧ request ∈ requests ∧ SameSeries rows job request
  | _, _ => False

/-- The requests and jobs of one series keep apart just when they share a key. -/
theorem excluded_iff : (∀ ops, ∀ job ∈ jobs, ∀ request ∈ requests, SameSeries rows job request →
      ¬ (.execution job ∈ (run (LockTable.step Party.lockKey) LockTable.empty ops).inside ∧
        .handler request ∈ (run (LockTable.step Party.lockKey) LockTable.empty ops).inside)) ↔
    ∀ job ∈ jobs, ∀ request ∈ requests, SameSeries rows job request → OneKey job request := by
  have hapart := LockTable.keeps_apart_iff Party.lockKey (Conflict rows jobs requests)
    fun p hp => by cases p <;> exact hp
  constructor
  · intro h job hjob request hrequest hsame
    refine lockKey_eq_iff.mp ?_
    refine ((hapart.mp ?_ (.execution job) (.handler request) ⟨hjob, hrequest, hsame⟩).2).symm
    rintro ops (job | request) (job' | request') hconflict
    · exact hconflict.elim
    · exact h ops job hconflict.1 request' hconflict.2.1 hconflict.2.2
    · exact hconflict.elim
    · exact hconflict.elim
  · intro h ops job hjob request hrequest hsame
    refine hapart.mpr ?_ ops (.execution job) (.handler request) ⟨hjob, hrequest, hsame⟩
    rintro (job | request) (job' | request') hconflict
    · exact hconflict.elim
    · obtain ⟨hjob, hrequest, hsame⟩ := hconflict
      exact ⟨Option.some_ne_none _, (lockKey_eq_iff.mpr (h job hjob request' hrequest hsame)).symm⟩
    · exact hconflict.elim
    · exact hconflict.elim

/-- The writes are excluded and the series kept apart, just when every request goes to a locked
endpoint under the id its series has with the service, and no two series have one such id. -/
theorem bible_exclusion_iff (rows : Table Series) (jobs : List Job) (requests : List BibleRequest) :
    BibleExclusion rows jobs requests ↔
      (∀ job ∈ jobs, ∀ request ∈ requests, SameSeries rows job request → OneKey job request) ∧
        ∀ job ∈ jobs, ∀ job' ∈ jobs, OtherSeries job job' →
          job.seriesId.getD (-1) ≠ job'.seriesId.getD (-1) := by
  constructor
  · intro h
    exact ⟨excluded_iff.mp h.excluded, h.apart⟩
  · rintro ⟨hkeys, hjobs⟩
    exact ⟨fun job hjob request hrequest hsame =>
      lockKey_eq_iff.mpr (hkeys job hjob request hrequest hsame), excluded_iff.mpr hkeys, hjobs⟩

example : ¬ BibleExclusion Table.empty
    [{ id := 1, sourcePath := "/tv/a.srt", seriesId := some 5, trigger := .poll
       mediaItemJson := some { arrKind := some "sonarr", seriesId := some 5 } },
      { id := 2, sourcePath := "/film/b.srt", seriesId := some 5, trigger := .poll
        mediaItemJson := some { arrKind := some "radarr", seriesId := some 5 } }] [] :=
  fun h => h.apart _ List.mem_cons_self _ (List.mem_cons_of_mem _ List.mem_cons_self)
    ⟨by decide, by decide, by decide⟩ rfl

/-- The first series of the Bible, the seventh of the service. -/
def firstSeries : Table Series := ⟨[{ id := 1, arrSeriesId := 7 }], by decide⟩

def seventhSeries : Job where
  id := 1
  sourcePath := "/tv/E01.en.srt"
  seriesId := some 7
  trigger := .poll
  mediaItemJson := some { arrKind := some "sonarr", seriesId := some 7 }

/-- A character is edited while its series is translated. -/
theorem edited_while_translated :
    ¬ BibleExclusion firstSeries [seventhSeries] [⟨1, .patchCharacter, 1⟩] := by
  intro h
  have hsame : SameSeries firstSeries seventhSeries ⟨1, .patchCharacter, 1⟩ :=
    ⟨_, List.mem_singleton_self _, rfl, rfl, by decide⟩
  refine h.excluded [.arrive (.execution seventhSeries), .arrive (.handler ⟨1, .patchCharacter, 1⟩)]
    seventhSeries (List.mem_singleton_self _) _ (List.mem_singleton_self _) hsame ?_
  decide

end Trezarr.Web
