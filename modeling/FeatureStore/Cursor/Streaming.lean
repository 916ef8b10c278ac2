-- SUMMARY: The streaming cursor: forward over a source, at most one row ahead of its reader.
import FeatureStore.Codec.Retarget
import FeatureStore.Cursor.Row

/-!
# Streaming cursors

A streaming cursor moves forward over the rows of a source. To say whether there
is a next row it loads that row and keeps it. Moving on swaps the slots of the current row
and of the kept one, and clears the latter for the next load. So the source is asked for
each row once, and never for more than one row ahead.

The position is `-1` before the first row, then the index of the current row, and
the number of rows after the last, as far as integers of sixty-four bits go. A failed load
changes neither the position nor the current row. Every operation that can fail does so on
a closed cursor.

Each operation returns its result and the cursor it leaves behind.
-/

namespace FeatureStore

/-- The sum of a position and an offset, or the signed integer of sixty-four bits that is
    nearest to it. -/
def shift (position offset : Int) : Int :=
  max Int64.minValue.toInt (min (position + offset) Int64.maxValue.toInt)

structure StreamingCursor (σ : Type) (fmt : Format) where
  handle : Handle σ
  current : Row fmt := {}
  lookahead : Row fmt := {}
  lookaheadLoaded : Bool := false
  position : Int := -1
  exhausted : Bool := false

namespace StreamingCursor

variable {ε σ α : Type} [RowSource ε σ] {fmt : Format}

def ofSource (source : σ) : StreamingCursor σ fmt := { handle := { source } }

def isClosed (c : StreamingCursor σ fmt) : Bool := c.handle.released

/-- Release the source and forget both rows. The second time nothing happens. -/
def close (c : StreamingCursor σ fmt) : StreamingCursor σ fmt :=
  if c.handle.released then c
  else
    { c with
      handle := c.handle.release
      current := c.current.clear
      lookahead := c.lookahead.clear
      lookaheadLoaded := false }

/-! ## Moving -/

/-- Load the next row and keep it. -/
def lookAhead (env : ε) (c : StreamingCursor σ fmt) :
    Except CursorError Bool × StreamingCursor σ fmt :=
  let (result, row, source) := c.lookahead.load env c.handle.source
  let c := { c with handle := { c.handle with source }, lookahead := row }
  match result with
  | .ok found => (.ok found, { c with lookaheadLoaded := true })
  | .error e => (.error (.store e), c)

def hasNext (env : ε) (c : StreamingCursor σ fmt) :
    Except CursorError Bool × StreamingCursor σ fmt :=
  if c.handle.released then (.error .closed, c)
  else if c.lookaheadLoaded then (.ok c.lookahead.valid, c)
  else if c.exhausted then (.ok false, c)
  else c.lookAhead env

/-- Make the kept row the current one. -/
def advance (c : StreamingCursor σ fmt) : StreamingCursor σ fmt :=
  { c with
    current := c.lookahead
    lookahead := c.current.clear
    lookaheadLoaded := false
    position := shift c.position 1 }

/-- Step behind the last row, unless the cursor is there. -/
def finish (c : StreamingCursor σ fmt) : StreamingCursor σ fmt :=
  if c.exhausted then c
  else { c with current := c.current.clear, position := shift c.position 1, exhausted := true }

def next (env : ε) (c : StreamingCursor σ fmt) : Except CursorError Unit × StreamingCursor σ fmt :=
  match c.hasNext env with
  | (.ok true, c) => (.ok (), c.advance)
  | (.ok false, c) => (.error .exhausted, c.finish)
  | (.error e, c) => (.error e, c)

/-- Move to the next row if there is one, and say whether there was. Unlike `next`
    it does not step behind the last row. -/
def tryNext (env : ε) (c : StreamingCursor σ fmt) :
    Except CursorError Bool × StreamingCursor σ fmt :=
  match c.hasNext env with
  | (.ok true, c) => (.ok true, c.advance)
  | (.ok false, c) => (.ok false, c)
  | (.error e, c) => (.error e, c)

/-! ## The current row -/

def currentCodec (c : StreamingCursor σ fmt) : Except CursorError (Codec fmt) :=
  if c.handle.released then .error .closed
  else if c.current.valid then .ok c.current.codec
  else .error (.outOfBounds c.position)

def withCurrent (c : StreamingCursor σ fmt) (codec : Codec fmt) : StreamingCursor σ fmt :=
  { c with current := { c.current with codec } }

def onCurrent (c : StreamingCursor σ fmt) (use : Codec fmt → α × Codec fmt) :
    Except CursorError α × StreamingCursor σ fmt :=
  match c.currentCodec with
  | .ok codec => (.ok (use codec).1, c.withCurrent (use codec).2)
  | .error e => (.error e, c)

/-! ## Reading to the end -/

/-- The rows that can still become current while the environment stays as it is. -/
def remaining (env : ε) (c : StreamingCursor σ fmt) : Nat :=
  RowSource.remaining env c.handle.source + if c.lookaheadLoaded && c.lookahead.valid then 1 else 0

theorem remaining_withCurrent (env : ε) (c : StreamingCursor σ fmt) (codec : Codec fmt) :
    (c.withCurrent codec).remaining env = c.remaining env := rfl

theorem remaining_tryNext (env : ε) (c : StreamingCursor σ fmt)
    (h : (c.tryNext env).1 = .ok true) : (c.tryNext env).2.remaining env < c.remaining env := by
  by_cases hr : c.handle.released = true
  · simp [tryNext, hasNext, hr] at h
  by_cases hl : c.lookaheadLoaded = true
  · cases hv : c.lookahead.valid
    · simp [tryNext, hasNext, hr, hl, hv] at h
    · simp [tryNext, hasNext, hr, hl, hv, remaining, advance]
  by_cases he : c.exhausted = true
  · simp [tryNext, hasNext, hr, hl, he] at h
  have law := c.lookahead.remaining_load env c.handle.source
  revert h
  unfold tryNext hasNext lookAhead
  rcases hload : c.lookahead.load env c.handle.source with ⟨result, row, source⟩
  rw [hload] at law
  cases result with
  | error e => simp [hr, hl, he]
  | ok found =>
    cases found
    · simp [hr, hl, he]
    · intro _
      have := law rfl
      simpa [hr, hl, he, remaining, advance] using this

/-- Visit every following row. A visit may change the row. -/
def forEach (env : ε) (visit : Codec fmt → α × Codec fmt) (c : StreamingCursor σ fmt) :
    Except CursorError (List α) × StreamingCursor σ fmt :=
  match _h : c.tryNext env with
  | (.ok true, moved) =>
    let (value, codec) := visit moved.current.codec
    let (values, last) := forEach env visit (moved.withCurrent codec)
    (values.map (value :: ·), last)
  | (.ok false, last) => (.ok [], last)
  | (.error e, last) => (.error e, last)
termination_by c.remaining env
decreasing_by
  have law := c.remaining_tryNext env
  rw [_h] at law
  rw [remaining_withCurrent]
  exact law rfl

/-! ## Changing the format -/

/-- The row in another format. An empty slot stays empty. -/
def retargetRow (row : Row fmt) (target : Format) (reEncode : Bool) : Row target :=
  if row.valid then { codec := row.codec.retarget target reEncode, valid := true } else {}

def withFormat (c : StreamingCursor σ fmt) (target : Format) (reEncode : Bool) :
    StreamingCursor σ target :=
  { handle := c.handle
    current := retargetRow c.current target reEncode
    lookahead := retargetRow c.lookahead target reEncode
    lookaheadLoaded := c.lookaheadLoaded
    position := c.position
    exhausted := c.exhausted }

end StreamingCursor

end FeatureStore
