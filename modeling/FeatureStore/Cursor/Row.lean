-- SUMMARY: A slot for one row of a result.
import FeatureStore.Codec.Basic
import FeatureStore.Cursor.Source

/-!
# Rows

A row is a codec and whether it holds a row at all. A cursor has two of them and uses
them again for one row after the other. A load clears the slot before it fills it, so a row
never shows anything of an earlier one.
-/

namespace FeatureStore

structure Row (fmt : Format) where
  codec : Codec fmt := {}
  valid : Bool := false
deriving Inhabited

namespace Row

variable {ε σ : Type} [RowSource ε σ] {fmt : Format}

/-- A row of the given parts, in a slot that has not been used before. -/
def ofParts (parts : Parts) : Row fmt :=
  { codec := .ofLoad parts true, valid := true }

def clear (row : Row fmt) : Row fmt :=
  { row with codec := row.codec.clear, valid := false }

/-- Load the next row of a source into the slot. The slot is empty if there is none or the load
    fails. -/
def load (row : Row fmt) (env : ε) (source : σ) : Except StoreError Bool × Row fmt × σ :=
  match RowSource.load env source with
  | (.ok (some parts), source) =>
    (.ok true, { row with codec := row.codec.load parts true, valid := true }, source)
  | (.ok none, source) => (.ok false, row.clear, source)
  | (.error e, source) => (.error e, row.clear, source)

@[simp] theorem clear_eq (row : Row fmt) : row.clear = {} := by
  rw [clear, Codec.clear_eq]

theorem remaining_load (row : Row fmt) (env : ε) (source : σ)
    (h : (row.load env source).1 = .ok true) :
    RowSource.remaining env (row.load env source).2.2 < RowSource.remaining env source := by
  unfold load at h ⊢
  have law := RowSource.remaining_load env source
  split at h <;> simp_all

end Row

end FeatureStore
