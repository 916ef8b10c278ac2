-- SUMMARY: The heap cursor: all rows in memory, with random access, edits and a submission order to restore.
import FeatureStore.Cursor.Streaming

/-!
# Heap cursors

A heap cursor holds its rows in memory. Its position is that of a gap cursor over a
list: `-1` before the first row, the index of the current row, or the number of
rows after the last. Moves are clamped to this range.

Removing a row at or before the current position moves the cursor one row back, so
the rows that follow are still visited. A cursor may know the order in which its
rows were submitted, as a rank for each id; adding or replacing a row forgets it.

A heap cursor made from another cursor keeps that cursor's handle, which is released
when the heap cursor is closed or dropped.
-/

namespace FeatureStore

/-- A cursor over rows in memory. `origin` is the cursor that the rows came from, if
    they came from one, given by its handle, if it had one. -/
structure HeapCursor (σ : Type) (fmt : Format) where
  codecs : List (Codec fmt)
  position : Int := -1
  inputOrder : Option (Keyed Nat) := none
  origin : Option (Option (Handle σ)) := none
  closed : Bool := false

namespace HeapCursor

variable {ε σ α : Type} [RowSource ε σ] {fmt : Format}

def ofCodecs (codecs : List (Codec fmt)) : HeapCursor σ fmt := { codecs }

def ofFeatures (features : List fmt.Assembled) : HeapCursor σ fmt :=
  ofCodecs (features.map Codec.ofFeature)

def withOrder (c : HeapCursor σ fmt) (order : Keyed Nat) : HeapCursor σ fmt :=
  { c with inputOrder := some order }

def length (c : HeapCursor σ fmt) : Nat := c.codecs.length

/-- Whether a cursor that the rows came from is still held. -/
def hasOrigin (c : HeapCursor σ fmt) : Bool := c.origin.isSome && !c.closed

def handle? (c : HeapCursor σ fmt) : Option (Handle σ) := c.origin.join

def release (c : HeapCursor σ fmt) : HeapCursor σ fmt :=
  { c with origin := c.origin.map (fun handle => handle.map Handle.release) }

/-- Forget the rows and their order and release their source. -/
def close (c : HeapCursor σ fmt) : HeapCursor σ fmt :=
  if c.closed then c
  else { c.release with codecs := [], inputOrder := none, closed := true }

/-- Take the rows out. The cursor is closed. -/
def intoCodecs (c : HeapCursor σ fmt) : List (Codec fmt) × HeapCursor σ fmt :=
  (c.codecs, c.close)

/-! ## Moving -/

def hasNext (c : HeapCursor σ fmt) : Except CursorError Bool :=
  if c.closed then .error .closed else .ok (decide (c.position + 1 < c.length))

/-- Move to the next row, or after the last. -/
def next (c : HeapCursor σ fmt) : Except CursorError Unit × HeapCursor σ fmt :=
  match c.hasNext with
  | .ok true => (.ok (), { c with position := c.position + 1 })
  | .ok false => (.error .exhausted, { c with position := c.length })
  | .error e => (.error e, c)

/-- Move to the next row if there is one, and say whether there was. -/
def tryNext (c : HeapCursor σ fmt) : Except CursorError Bool × HeapCursor σ fmt :=
  match c.hasNext with
  | .ok true => (.ok true, { c with position := c.position + 1 })
  | .ok false => (.ok false, c)
  | .error e => (.error e, c)

/-- Move to a position, or to the nearest that there is. Says whether that is a row. -/
def absolute (c : HeapCursor σ fmt) (position : Int) :
    Except CursorError Bool × HeapCursor σ fmt :=
  if c.closed then (.error .closed, c)
  else if c.length ≤ position then (.ok false, { c with position := c.length })
  else if position < 0 then (.ok false, { c with position := -1 })
  else (.ok true, { c with position })

def relative (c : HeapCursor σ fmt) (offset : Int) : Except CursorError Bool × HeapCursor σ fmt :=
  c.absolute (shift c.position offset)

def previous (c : HeapCursor σ fmt) : Except CursorError Bool × HeapCursor σ fmt := c.relative (-1)

def first (c : HeapCursor σ fmt) : Except CursorError Bool × HeapCursor σ fmt := c.absolute 0

def last (c : HeapCursor σ fmt) : Except CursorError Bool × HeapCursor σ fmt :=
  c.absolute (c.length - 1)

def beforeFirst (c : HeapCursor σ fmt) : Except CursorError Unit × HeapCursor σ fmt :=
  let (result, c) := c.absolute (-1)
  (result.map (fun _ => ()), c)

def afterLast (c : HeapCursor σ fmt) : Except CursorError Unit × HeapCursor σ fmt :=
  let (result, c) := c.absolute c.length
  (result.map (fun _ => ()), c)

/-! ## Rows -/

/-- The index and the codec of the row at a position. -/
def row (c : HeapCursor σ fmt) (position : Int) : Except CursorError (Nat × Codec fmt) :=
  if c.closed then .error .closed
  else if position < 0 then .error (.outOfBounds position)
  else
    match c.codecs[position.toNat]? with
    | some codec => .ok (position.toNat, codec)
    | none => .error (.outOfBounds position)

def currentCodec (c : HeapCursor σ fmt) : Except CursorError (Codec fmt) :=
  (c.row c.position).map Prod.snd

/-- The cursor with another codec on one of its rows. -/
def withRow (c : HeapCursor σ fmt) (index : Nat) (codec : Codec fmt) : HeapCursor σ fmt :=
  { c with codecs := c.codecs.set index codec }

def onCurrent (c : HeapCursor σ fmt) (use : Codec fmt → α × Codec fmt) :
    Except CursorError α × HeapCursor σ fmt :=
  match c.row c.position with
  | .ok (index, codec) => (.ok (use codec).1, c.withRow index (use codec).2)
  | .error e => (.error e, c)

/-! ## Edits -/

/-- Append a feature. Yields its position. -/
def addFeature (c : HeapCursor σ fmt) (f : fmt.Assembled) :
    Except CursorError Int × HeapCursor σ fmt :=
  if c.closed then (.error .closed, c)
  else
    (.ok c.length, { c with codecs := c.codecs ++ [.ofFeature f], inputOrder := none })

/-- Replace the feature at a position. Yields the one that was there. -/
def setFeatureAt (c : HeapCursor σ fmt) (position : Int) (f : fmt.Assembled) :
    Except CursorError (Option fmt.Assembled) × HeapCursor σ fmt :=
  match c.row position with
  | .ok (index, codec) =>
    let (old, codec) := codec.takeFeature
    (.ok old, { c.withRow index (codec.setFeature f) with inputOrder := none })
  | .error e => (.error e, c)

def setFeature (c : HeapCursor σ fmt) (f : fmt.Assembled) :
    Except CursorError (Option fmt.Assembled) × HeapCursor σ fmt :=
  c.setFeatureAt c.position f

/-- Remove the row at a position. Yields its feature. -/
def removeFeatureAt (c : HeapCursor σ fmt) (position : Int) :
    Except CursorError (Option fmt.Assembled) × HeapCursor σ fmt :=
  match c.row position with
  | .ok (index, codec) =>
    (.ok codec.takeFeature.1,
      { c with
        codecs := c.codecs.eraseIdx index
        position := if position ≤ c.position then c.position - 1 else c.position })
  | .error e => (.error e, c)

def removeFeature (c : HeapCursor σ fmt) :
    Except CursorError (Option fmt.Assembled) × HeapCursor σ fmt :=
  c.removeFeatureAt c.position

/-! ## Submission order -/

def hasInputOrder (c : HeapCursor σ fmt) : Bool := c.inputOrder.isSome

/-- The rank of each row by its id, as far as the first row that has none. Reading the
    ids decodes the rows up to there. -/
def ranked (order : Keyed Nat) : List (Codec fmt) → Option (List Nat) × List (Codec fmt)
  | [] => (some [], [])
  | codec :: rest =>
    let (id, codec) := codec.id
    match id.bind order.find? with
    | none => (none, codec :: rest)
    | some rank =>
      let (ranks, rest) := ranked order rest
      (ranks.map (rank :: ·), codec :: rest)

/-- Rows in ascending order of their ranks. Rows of equal rank keep their order. -/
def sortByRank (ranks : List Nat) (codecs : List (Codec fmt)) : List (Codec fmt) :=
  ((ranks.zip codecs).mergeSort (fun a b => decide (a.1 ≤ b.1))).map Prod.snd

/-- Put the rows into the order in which they were submitted, if it is known and
    ranks every row. -/
def restoreInputOrder (c : HeapCursor σ fmt) : Bool × HeapCursor σ fmt :=
  match c.inputOrder with
  | none => (false, c)
  | some order =>
    match ranked order c.codecs with
    | (none, codecs) => (false, { c with codecs })
    | (some ranks, codecs) => (true, { c with codecs := sortByRank ranks codecs, position := -1 })

/-! ## Reading to the end -/

/-- Visit every following row. A visit may change the row. -/
def forEach (visit : Codec fmt → α × Codec fmt) (c : HeapCursor σ fmt) :
    Except CursorError (List α) × HeapCursor σ fmt :=
  if c.closed then (.error .closed, c)
  else
    let passed := (c.position + 1).toNat
    let visits := (c.codecs.drop passed).map visit
    (.ok (visits.map Prod.fst),
      { c with
        codecs := c.codecs.take passed ++ visits.map Prod.snd
        position := max c.position (c.length - 1) })

/-! ## Changing the format -/

/-- The cursor in another format, at the same position. -/
def withFormat (c : HeapCursor σ fmt) (target : Format) (reEncode : Bool) : HeapCursor σ target :=
  { codecs := c.codecs.map (fun codec => codec.retarget target reEncode)
    position := c.position
    inputOrder := c.inputOrder
    origin := c.origin
    closed := c.closed }

/-- A cursor of rows taken from another one. -/
def ofTaken (codecs : List (Codec fmt)) (origin : Option (Handle σ)) : HeapCursor σ fmt :=
  { codecs, origin := some origin }

end HeapCursor

/-! ## Taking rows from another cursor

A row is taken by moving it to the target format and leaving an empty codec behind.
When the cursor fails before its end, the rows taken so far are lost and the cursor
is dropped, which releases its handle. -/

/-- Take a codec in another format. -/
def Codec.take {fmt : Format} (target : Format) (codec : Codec fmt) : Codec target × Codec fmt :=
  (codec.retarget target false, {})

def StreamingCursor.materialize {ε σ : Type} [RowSource ε σ] {fmt : Format}
    (env : ε) (c : StreamingCursor σ fmt) (target : Format) :
    Except (CursorError × Option (Handle σ)) (HeapCursor σ target) :=
  match c.forEach env (Codec.take target) with
  | (.ok codecs, last) => .ok (.ofTaken codecs (some last.handle))
  | (.error e, last) => .error (e, some last.handle.release)

def HeapCursor.materialize {ε σ : Type} [RowSource ε σ] {fmt : Format}
    (c : HeapCursor σ fmt) (target : Format) :
    Except (CursorError × Option (Handle σ)) (HeapCursor σ target) :=
  match c.forEach (Codec.take target) with
  | (.ok codecs, last) => .ok (.ofTaken codecs last.handle?)
  | (.error e, last) => .error (e, last.release.handle?)

end FeatureStore
