-- SUMMARY: Sources of rows, the handle that releases a source once, and two sources in memory.
import FeatureStore.Codec.Parts

/-!
# Sources of rows

A source supplies the rows of a result one at a time. It may read them from an
environment that changes between two loads, such as a database; a source in memory
has the environment `Unit`. A load finds a row, finds that there is none, or fails.

A source has a bound on the rows it can still supply while its environment stays
as it is. Every row lowers the bound, so reading a source to its end terminates.
-/

namespace FeatureStore

/-- Sources of type `σ` that read from environments of type `ε`. -/
class RowSource (ε : outParam Type) (σ : Type) where
  /-- Load the next row; none when there is no other. -/
  load : ε → σ → Except StoreError (Option Parts) × σ
  /-- Release what the source holds. -/
  close : σ → σ
  /-- A bound on the rows to come. -/
  remaining : ε → σ → Nat
  /-- A row lowers the bound. -/
  remaining_load (env : ε) (s : σ) (parts : Parts) :
    (load env s).1 = .ok (some parts) → remaining env (load env s).2 < remaining env s

/-! ## Handles -/

/-- A source in use. Releasing a handle closes its source, but only the first time. -/
structure Handle (σ : Type) where
  source : σ
  released : Bool := false

namespace Handle

variable {ε σ : Type} [RowSource ε σ]

/-- Close the source, unless that has been done. -/
def release (h : Handle σ) : Handle σ :=
  if h.released then h else { source := RowSource.close h.source, released := true }

@[simp] theorem released_release (h : Handle σ) : h.release.released = true := by
  unfold release
  split <;> simp_all

@[simp] theorem release_release (h : Handle σ) : h.release.release = h.release := by
  rw [release, if_pos h.released_release]

end Handle

/-! ## Rows in memory -/

structure RowQueue where
  rows : List Parts

namespace RowQueue

def load (q : RowQueue) : Except StoreError (Option Parts) × RowQueue :=
  match q.rows with
  | [] => (.ok none, q)
  | row :: rest => (.ok (some row), ⟨rest⟩)

theorem length_load (q : RowQueue) (parts : Parts) (h : q.load.1 = .ok (some parts)) :
    q.load.2.rows.length < q.rows.length := by
  obtain ⟨rows⟩ := q
  cases rows with
  | nil => simp [load] at h
  | cons row rest => simp [load]

instance : RowSource Unit RowQueue where
  load _ q := q.load
  close _ := ⟨[]⟩
  remaining _ q := q.rows.length
  remaining_load _ q parts h := q.length_load parts h

end RowQueue

/-! ## Rows that count their uses -/

/-- Rows in memory with the number of loads and of closings so far. It may fail
    instead of coming to an end. -/
structure CountedRows where
  queue : RowQueue
  failWhenDrained : Bool := false
  loads : Nat := 0
  closes : Nat := 0

namespace CountedRows

/-- The failure of a source that does not come to an end. -/
def lost : StoreError := .backend "load row" "connection reset"

/-- Take the first row and count the load. -/
def load (s : CountedRows) : Except StoreError (Option Parts) × CountedRows :=
  let counted := { s with loads := s.loads + 1 }
  if s.failWhenDrained && s.queue.rows.isEmpty then (.error lost, counted)
  else
    let (result, queue) := s.queue.load
    (result, { counted with queue })

instance : RowSource Unit CountedRows where
  load _ s := s.load
  close s := { s with queue := ⟨[]⟩, closes := s.closes + 1 }
  remaining _ s := s.queue.rows.length
  remaining_load _ s parts h := by
    by_cases hd : (s.failWhenDrained && s.queue.rows.isEmpty) = true
    · simp [load, hd] at h
    · simp only [load, hd, if_false, Bool.false_eq_true] at h ⊢
      exact s.queue.length_load parts h

end CountedRows

/-! ## One of two kinds -/

instance {ε σ τ : Type} [RowSource ε σ] [RowSource ε τ] : RowSource ε (σ ⊕ τ) where
  load env
    | .inl s => let (result, s) := RowSource.load env s; (result, .inl s)
    | .inr t => let (result, t) := RowSource.load env t; (result, .inr t)
  close
    | .inl s => .inl (RowSource.close s)
    | .inr t => .inr (RowSource.close t)
  remaining env
    | .inl s => RowSource.remaining env s
    | .inr t => RowSource.remaining env t
  remaining_load env s parts h := by
    cases s with
    | inl s => exact RowSource.remaining_load env s parts h
    | inr t => exact RowSource.remaining_load env t parts h

end FeatureStore
