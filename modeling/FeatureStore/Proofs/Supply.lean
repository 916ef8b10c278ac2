-- SUMMARY: What a source supplies while its environment stays as it is, and how a cursor looks up the next row.
import FeatureStore.Cursor.Basic
import FeatureStore.Store.Session

/-!
# Supplies of rows

As long as its environment stays as it is, a source has a list of rows to supply, and
then comes to its end. A cursor over it looks up the rows one by one, and keeps each until
it moves onto it.
-/

namespace FeatureStore

variable {ε σ α : Type} [RowSource ε σ] {fmt : Format}

/-- The source supplies these rows and then comes to its end. -/
def Supplies (env : ε) : List Parts → σ → Prop
  | [], source => (RowSource.load env source).1 = .ok none
  | row :: rest, source =>
    (RowSource.load env source).1 = .ok (some row) ∧
      Supplies env rest (RowSource.load env source).2

/-- The codec of a row when a cursor arrives at it. -/
def Codec.arrived (row : Parts) : Codec fmt := ofLoad row true

/-- A row that has arrived is not changed by the move to another format. -/
theorem Codec.retarget_arrived (row : Parts) (target : Format) :
    (arrived row : Codec fmt).retarget target false = arrived row := by
  by_cases hsame : fmt = target
  · subst hsame
    exact retarget_self _
  · rw [retarget_of_ne _ hsame]
    rfl

/-! ## Cursors -/

namespace StreamingCursor

section Lookup

variable {env : ε} {c : StreamingCursor σ fmt}

/-! A lookup ends in one of three ways, and in none of them does it matter what the slot held
before. -/

theorem lookAhead_of_row {row : Parts} {source : σ}
    (h : RowSource.load env c.handle.source = (.ok (some row), source)) :
    c.lookAhead env = (.ok true, { c with
      handle := { c.handle with source }, lookahead := .ofParts row, lookaheadLoaded := true }) := by
  simp only [lookAhead, Row.load, h, Codec.load_eq, Row.ofParts]

theorem lookAhead_of_end {source : σ}
    (h : RowSource.load env c.handle.source = (.ok none, source)) :
    c.lookAhead env = (.ok false, { c with
      handle := { c.handle with source }, lookahead := {}, lookaheadLoaded := true }) := by
  simp only [lookAhead, Row.load, h, Row.clear_eq]

theorem lookAhead_of_failure {failure : StoreError} {source : σ}
    (h : RowSource.load env c.handle.source = (.error failure, source)) :
    c.lookAhead env = (.error (.store failure), { c with
      handle := { c.handle with source }, lookahead := {} }) := by
  simp only [lookAhead, Row.load, h, Row.clear_eq]

/-! What it means that there is a next row depends on what is known of it. -/

theorem hasNext_of_released (env : ε) (h : c.handle.released = true) :
    c.hasNext env = (.error .closed, c) := if_pos h

theorem hasNext_of_loaded (env : ε) (hopen : c.handle.released = false)
    (h : c.lookaheadLoaded = true) :
    c.hasNext env = (.ok c.lookahead.valid, c) := by
  simp [hasNext, hopen, h]

theorem hasNext_of_exhausted (env : ε) (hopen : c.handle.released = false)
    (hloaded : c.lookaheadLoaded = false) (h : c.exhausted = true) :
    c.hasNext env = (.ok false, c) := by
  simp [hasNext, hopen, hloaded, h]

theorem hasNext_of_unread (env : ε) (hopen : c.handle.released = false)
    (hloaded : c.lookaheadLoaded = false) (h : c.exhausted = false) :
    c.hasNext env = c.lookAhead env := by
  simp [hasNext, hopen, hloaded, h]

end Lookup

end StreamingCursor

/-! ## Rows in memory -/

theorem RowQueue.supplies (rows : List Parts) : Supplies () rows (RowQueue.mk rows) := by
  induction rows with
  | nil => rfl
  | cons row rest ih => exact ⟨rfl, ih⟩

end FeatureStore
