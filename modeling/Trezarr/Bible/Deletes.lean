import Trezarr.Bible.Store

/-! Deleting a row of the Bible: the transaction, and the coroutine that marks the row. -/
namespace Trezarr
open Text BibleRow

/-- A transaction on one table: what it read, and the keys of the rows it has marked. -/
structure DeleteSession where
  store : Store
  deleted : List ℕ := []

/-- What a call returns; the session changes when it is awaited. -/
abbrev Coroutine := DeleteSession → DeleteSession

section Delete

variable (R : Type) [BibleRow R]

def DeleteSession.delete (row : R) : Coroutine := fun session =>
  { session with deleted := session.deleted ++ [Keyed.id row] }

def DeleteSession.commit (session : DeleteSession) : Store :=
  session.deleted.foldl (fun s id => withTable s ((table (R := R) s).erase id)) session.store

/-- The committed store, and what is returned or raised. -/
def deleteRow (s : Store) (id series : ℕ) : Store × Except StoreError ℕ :=
  let session : DeleteSession := { store := s }
  match rowOfSeries R s id series with
  | .error err => (s, .error err)
  | .ok row =>
    -- nothing awaits the call, so the session is committed as it began
    let _coroutine : Coroutine := DeleteSession.delete R row
    (session.commit R, .ok id)

def deleteAddressPair (s : Store) (addressMapId series : ℕ) : Store × Except StoreError ℕ :=
  deleteRow AddressMap s addressMapId series

def deleteTerm (s : Store) (termId series : ℕ) : Store × Except StoreError ℕ :=
  deleteRow TermDictionary s termId series

/-- One row of the series less, or an error and nothing changed. -/
def DeletesExactly (s : Store) (id series : ℕ) : Store × Except StoreError ℕ → Prop
  | (s', .ok deleted) => deleted = id ∧ (∃ row, (table (R := R) s).get? id = some row ∧
      seriesId row = series) ∧ s' = withTable s ((table (R := R) s).erase id)
  | (s', .error err) => err = .notFound (entityType R) id series ∧ s' = s

variable {R} {s : Store} {id series : ℕ}

theorem rowOfSeries_cases : (∃ row, (table (R := R) s).get? id = some row ∧
      seriesId row = series ∧ rowOfSeries R s id series = .ok row) ∨
    (∀ row, (table (R := R) s).get? id = some row → seriesId row ≠ series) ∧
      rowOfSeries R s id series = .error (.notFound (entityType R) id series) := by
  unfold rowOfSeries
  cases hget : (table (R := R) s).get? id with
  | none => exact .inr ⟨nofun, rfl⟩
  | some row =>
    by_cases hseries : seriesId row = series
    · exact .inl ⟨row, rfl, hseries, if_pos hseries⟩
    · refine .inr ⟨?_, if_neg hseries⟩
      rintro row' ⟨⟩
      exact hseries

/-- A row that is there stays there. -/
theorem deletesExactly_iff : DeletesExactly R s id series (deleteRow R s id series) ↔
    ∀ row, (table (R := R) s).get? id = some row → seriesId row ≠ series := by
  unfold deleteRow
  rcases @rowOfSeries_cases R _ s id series with
    ⟨row, hget, hseries, hrow⟩ | ⟨hnone, hrow⟩
  · rw [hrow]
    refine iff_of_false ?_ fun hnone => hnone row hget hseries
    rintro ⟨_, _, herased⟩
    have hgone := congrArg (fun s => (table (R := R) s).get? id) herased
    simp only [DeleteSession.commit, List.foldl_nil, table_withTable, Table.get?_erase, if_true,
      hget] at hgone
    cases hgone
  · rw [hrow]
    exact iff_of_true ⟨rfl, rfl⟩ hnone

end Delete

/-- Both deletions do as they say just when there is nothing to delete. -/
theorem deletes_exactly_iff (s : Store) (id series : ℕ) :
    (DeletesExactly AddressMap s id series (deleteAddressPair s id series) ↔
      ∀ row, s.addressMaps.get? id = some row → row.seriesId ≠ series) ∧
    (DeletesExactly TermDictionary s id series (deleteTerm s id series) ↔
      ∀ row, s.termDictionary.get? id = some row → row.seriesId ≠ series) :=
  ⟨deletesExactly_iff, deletesExactly_iff⟩

/-- A series with one term. -/
def oneTerm : Store where
  series := ⟨[{ id := 1 }], nodup_firstSeries⟩
  termDictionary := ⟨[⟨1, 1, "Qi", "Khí", none, []⟩], by decide⟩

theorem term_not_deleted : (deleteTerm oneTerm 1 1).2 = .ok 1 ∧
    (deleteTerm oneTerm 1 1).1.termDictionary.rows = oneTerm.termDictionary.rows ∧
    ¬ DeletesExactly TermDictionary oneTerm 1 1 (deleteTerm oneTerm 1 1) := by
  refine ⟨rfl, rfl, ?_⟩
  rintro ⟨_, _, herased⟩
  have hrows := congrArg (fun s => s.termDictionary.rows.length) herased
  revert hrows
  decide

end Trezarr
