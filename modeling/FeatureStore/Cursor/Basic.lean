-- SUMMARY: Cursors of either kind, and the operations that both kinds have.
import FeatureStore.Cursor.Heap

/-!
# Cursors

A cursor is a streaming cursor or a heap cursor. What both can do is defined here
once for either kind: moving forward, using the current row, reading to the end,
changing the format, and taking all following rows into memory.
-/

namespace FeatureStore

inductive Cursor (σ : Type) (fmt : Format)
  | stream (c : StreamingCursor σ fmt)
  | heap (c : HeapCursor σ fmt)

namespace Cursor

variable {ε σ α : Type} [RowSource ε σ] {fmt : Format}

def position : Cursor σ fmt → Int
  | .stream c => c.position
  | .heap c => c.position

def isClosed : Cursor σ fmt → Bool
  | .stream c => c.isClosed
  | .heap c => c.closed

def handle? : Cursor σ fmt → Option (Handle σ)
  | .stream c => some c.handle
  | .heap c => c.handle?

/-- Close the cursor. The second time nothing happens. -/
def close : Cursor σ fmt → Cursor σ fmt
  | .stream c => .stream c.close
  | .heap c => .heap c.close

/-- What becomes of the handle when the cursor is dropped: it is released, unless
    closing the cursor has done that. -/
def drop (c : Cursor σ fmt) : Option (Handle σ) := c.handle?.map Handle.release

def hasNext (env : ε) : Cursor σ fmt → Except CursorError Bool × Cursor σ fmt
  | .stream c => let (result, c) := c.hasNext env; (result, .stream c)
  | .heap c => (c.hasNext, .heap c)

def next (env : ε) : Cursor σ fmt → Except CursorError Unit × Cursor σ fmt
  | .stream c => let (result, c) := c.next env; (result, .stream c)
  | .heap c => let (result, c) := c.next; (result, .heap c)

/-- Move to the next row if there is one, and say whether there was. -/
def tryNext (env : ε) : Cursor σ fmt → Except CursorError Bool × Cursor σ fmt
  | .stream c => let (result, c) := c.tryNext env; (result, .stream c)
  | .heap c => let (result, c) := c.tryNext; (result, .heap c)

def currentCodec : Cursor σ fmt → Except CursorError (Codec fmt)
  | .stream c => c.currentCodec
  | .heap c => c.currentCodec

def onCurrent (c : Cursor σ fmt) (use : Codec fmt → α × Codec fmt) :
    Except CursorError α × Cursor σ fmt :=
  match c with
  | .stream c => let (result, c) := c.onCurrent use; (result, .stream c)
  | .heap c => let (result, c) := c.onCurrent use; (result, .heap c)

/-- Visit every following row. A visit may change the row. -/
def forEach (env : ε) (visit : Codec fmt → α × Codec fmt) :
    Cursor σ fmt → Except CursorError (List α) × Cursor σ fmt
  | .stream c => let (result, c) := c.forEach env visit; (result, .stream c)
  | .heap c => let (result, c) := c.forEach visit; (result, .heap c)

def withFormat (c : Cursor σ fmt) (target : Format) (reEncode : Bool) : Cursor σ target :=
  match c with
  | .stream c => .stream (c.withFormat target reEncode)
  | .heap c => .heap (c.withFormat target reEncode)

def materialize (env : ε) (c : Cursor σ fmt) (target : Format) :
    Except (CursorError × Option (Handle σ)) (HeapCursor σ target) :=
  match c with
  | .stream c => c.materialize env target
  | .heap c => c.materialize target

end Cursor

/-! ## Reading rows -/

/-- What is read of each row when a cursor is drained. -/
structure DrainedRow where
  id : Option String
  version : Option String
  json : Option String
  binary : Option (List UInt8)
deriving Repr

def DrainedRow.read {fmt : Format} (codec : Codec fmt) : DrainedRow × Codec fmt :=
  let (id, codec) := codec.id
  let (version, codec) := codec.version
  let (json, codec) := codec.json
  let (binary, codec) := codec.binaryGeometry
  ({ id, version, json, binary }, codec)

def Cursor.drain {ε σ : Type} [RowSource ε σ] {fmt : Format} (env : ε) (c : Cursor σ fmt) :
    Except CursorError (List DrainedRow) × Cursor σ fmt :=
  c.forEach env DrainedRow.read

end FeatureStore
