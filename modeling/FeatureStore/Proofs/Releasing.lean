-- SUMMARY: The source of a cursor is closed exactly once, after its last load, whatever becomes of the cursor.
import FeatureStore.Proofs.Moves

/-!
# Releasing

A streaming cursor holds the handle of its source. Put into another format it passes the
handle on, and so it does when its rows are taken into memory; a heap cursor holds the
handle of the cursor that its rows came from. Along the way the handle is released when the
cursor that holds it is closed, or taken apart, or fails, and otherwise when it is dropped.
Whatever is done, the source is closed once and not asked for a row after that.
-/

namespace FeatureStore

variable {ε σ α : Type} [RowSource ε σ] {fmt : Format}

/-! ## Handles -/

/-- The source has been asked for rows, and then closed if the handle has been released. -/
def Handle.Proper (h : Handle (Watched σ)) : Prop :=
  ∃ loads : List (Except StoreError (Option Parts)),
    h.source.calls = loads.map .load ++ if h.released then [.close] else []

namespace Handle.Proper

theorem opened (source : σ) : Handle.Proper { source := { source } : Handle (Watched σ) } :=
  ⟨[], rfl⟩

variable {h after : Handle (Watched σ)}

/-- Another load keeps the calls in order. -/
theorem load (hproper : h.Proper) (hopen : h.released = false) (hafter : after.released = false)
    {outcome : Except StoreError (Option Parts)}
    (hcalls : after.source.calls = h.source.calls ++ [.load outcome]) : after.Proper := by
  obtain ⟨loads, hloads⟩ := hproper
  refine ⟨loads ++ [outcome], ?_⟩
  rw [hcalls, hloads, hopen, hafter]
  simp

/-- So does the release, which closes the source only the first time. -/
theorem release (hproper : h.Proper) : h.release.Proper := by
  unfold Handle.release
  split
  · exact hproper
  next hopen =>
    obtain ⟨loads, hloads⟩ := hproper
    refine ⟨loads, ?_⟩
    change h.source.calls ++ [.close] = _
    rw [hloads, if_neg hopen]
    simp

end Handle.Proper

/-! ## Heap cursors in use -/

/-- A call that only a heap cursor has. -/
inductive HeapCall
  | absolute (position : Int)
  | relative (offset : Int)
  | previous
  | first
  | last
  | beforeFirst
  | afterLast
  | addFeature (f : (fmt : Format) → fmt.Assembled)
  | setFeatureAt (position : Int) (f : (fmt : Format) → fmt.Assembled)
  | setFeature (f : (fmt : Format) → fmt.Assembled)
  | removeFeatureAt (position : Int)
  | removeFeature
  | restoreInputOrder
  | withOrder (order : Keyed Nat)

namespace HeapCursor

variable {c : HeapCursor σ fmt}

def after (c : HeapCursor σ fmt) : HeapCall → HeapCursor σ fmt
  | .absolute position => (c.absolute position).2
  | .relative offset => (c.relative offset).2
  | .previous => c.previous.2
  | .first => c.first.2
  | .last => c.last.2
  | .beforeFirst => c.beforeFirst.2
  | .afterLast => c.afterLast.2
  | .addFeature f => (c.addFeature (f fmt)).2
  | .setFeatureAt position f => (c.setFeatureAt position (f fmt)).2
  | .setFeature f => (c.setFeature (f fmt)).2
  | .removeFeatureAt position => (c.removeFeatureAt position).2
  | .removeFeature => c.removeFeature.2
  | .restoreInputOrder => c.restoreInputOrder.2
  | .withOrder order => c.withOrder order

/-- The two cursors have the same origin, and both are closed or neither is. -/
def SameOrigin (c d : HeapCursor σ fmt) : Prop := d.origin = c.origin ∧ d.closed = c.closed

theorem sameOrigin_absolute (c : HeapCursor σ fmt) (position : Int) :
    c.SameOrigin (c.absolute position).2 := by
  unfold absolute
  split
  · exact ⟨rfl, rfl⟩
  split
  · exact ⟨rfl, rfl⟩
  split <;> exact ⟨rfl, rfl⟩

theorem sameOrigin_next (c : HeapCursor σ fmt) : c.SameOrigin c.next.2 := by
  unfold next
  split <;> exact ⟨rfl, rfl⟩

theorem sameOrigin_tryNext (c : HeapCursor σ fmt) : c.SameOrigin c.tryNext.2 := by
  unfold tryNext
  split <;> exact ⟨rfl, rfl⟩

theorem sameOrigin_onCurrent (c : HeapCursor σ fmt) (use : Codec fmt → α × Codec fmt) :
    c.SameOrigin (c.onCurrent use).2 := by
  unfold onCurrent
  split <;> exact ⟨rfl, rfl⟩

theorem sameOrigin_setFeatureAt (c : HeapCursor σ fmt) (position : Int) (f : fmt.Assembled) :
    c.SameOrigin (c.setFeatureAt position f).2 := by
  unfold setFeatureAt
  split <;> exact ⟨rfl, rfl⟩

theorem sameOrigin_removeFeatureAt (c : HeapCursor σ fmt) (position : Int) :
    c.SameOrigin (c.removeFeatureAt position).2 := by
  unfold removeFeatureAt
  split <;> exact ⟨rfl, rfl⟩

/-- No call touches what the rows came from. -/
theorem sameOrigin_after (c : HeapCursor σ fmt) (call : HeapCall) :
    c.SameOrigin (c.after call) := by
  cases call with
  | absolute position => exact c.sameOrigin_absolute position
  | relative offset => exact c.sameOrigin_absolute _
  | previous => exact c.sameOrigin_absolute _
  | first => exact c.sameOrigin_absolute _
  | last => exact c.sameOrigin_absolute _
  | beforeFirst => exact c.sameOrigin_absolute _
  | afterLast => exact c.sameOrigin_absolute _
  | addFeature f =>
    simp only [after, addFeature]
    split <;> exact ⟨rfl, rfl⟩
  | setFeatureAt position f => exact c.sameOrigin_setFeatureAt position (f fmt)
  | setFeature f => exact c.sameOrigin_setFeatureAt c.position (f fmt)
  | removeFeatureAt position => exact c.sameOrigin_removeFeatureAt position
  | removeFeature => exact c.sameOrigin_removeFeatureAt c.position
  | restoreInputOrder =>
    simp only [after, restoreInputOrder]
    split
    · exact ⟨rfl, rfl⟩
    · split <;> exact ⟨rfl, rfl⟩
  | withOrder order => exact ⟨rfl, rfl⟩

/-- A closed cursor refuses to move, to be edited and to show a row. -/
structure Refuses (c : HeapCursor σ fmt) : Prop where
  absolute : ∀ position, (c.absolute position).1 = .error .closed
  relative : ∀ offset, (c.relative offset).1 = .error .closed
  previous : c.previous.1 = .error .closed
  first : c.first.1 = .error .closed
  last : c.last.1 = .error .closed
  beforeFirst : c.beforeFirst.1 = .error .closed
  afterLast : c.afterLast.1 = .error .closed
  addFeature : ∀ f, (c.addFeature f).1 = .error .closed
  setFeatureAt : ∀ position f, (c.setFeatureAt position f).1 = .error .closed
  setFeature : ∀ f, (c.setFeature f).1 = .error .closed
  removeFeatureAt : ∀ position, (c.removeFeatureAt position).1 = .error .closed
  removeFeature : c.removeFeature.1 = .error .closed

theorem row_of_closed (h : c.closed = true) (position : Int) :
    c.row position = .error .closed := if_pos h

theorem refuses_of_closed (h : c.closed = true) : c.Refuses := by
  have habsolute (position : Int) : c.absolute position = (.error .closed, c) := if_pos h
  have hset (position : Int) (f : fmt.Assembled) :
      (c.setFeatureAt position f).1 = .error .closed := by
    rw [HeapCursor.setFeatureAt, row_of_closed h]
  have hremove (position : Int) : (c.removeFeatureAt position).1 = .error .closed := by
    rw [HeapCursor.removeFeatureAt, row_of_closed h]
  exact {
    absolute := fun position => by rw [habsolute]
    relative := fun offset => by rw [HeapCursor.relative, habsolute]
    previous := by rw [HeapCursor.previous, HeapCursor.relative, habsolute]
    first := by rw [HeapCursor.first, habsolute]
    last := by rw [HeapCursor.last, habsolute]
    beforeFirst := by
      rw [HeapCursor.beforeFirst, habsolute]
      rfl
    afterLast := by
      rw [HeapCursor.afterLast, habsolute]
      rfl
    addFeature := fun f => by rw [HeapCursor.addFeature, if_pos h]
    setFeatureAt := hset
    setFeature := hset c.position
    removeFeatureAt := hremove
    removeFeature := hremove c.position }

theorem handle?_release (c : HeapCursor σ fmt) :
    c.release.handle? = c.handle?.map Handle.release := by
  rcases c with ⟨codecs, position, order, _ | _ | handle, closed⟩ <;> rfl

theorem forEach_of_closed (h : c.closed = true) (visit : Codec fmt → α × Codec fmt) :
    c.forEach visit = (.error .closed, c) := if_pos h

end HeapCursor

/-! ## Streaming cursors in use -/

namespace StreamingCursor

variable {env : ε} {c : StreamingCursor (Watched σ) fmt}

theorem released_move (c : StreamingCursor (Watched σ) fmt) (env : ε) (m : Move) :
    (c.move env m).2.handle.released = c.handle.released := by
  cases hreleased : c.handle.released with
  | true => rw [move_of_released hreleased, hreleased]
  | false =>
    rcases move_loads hreleased env m with ⟨hsame, -⟩ | ⟨-, hopen, -⟩
    · rw [hsame, hreleased]
    · exact hopen

theorem proper_move (h : c.handle.Proper) (env : ε) (m : Move) :
    (c.move env m).2.handle.Proper := by
  cases hreleased : c.handle.released with
  | true =>
    rw [move_of_released hreleased]
    exact h
  | false =>
    rcases move_loads hreleased env m with ⟨hsame, -⟩ | ⟨-, hopen, outcome, hcalls, -⟩
    · rw [hsame]
      exact h
    · exact h.load hreleased hopen hcalls

theorem forEach_of_released (h : c.handle.released = true) (env : ε)
    (visit : Codec fmt → α × Codec fmt) : c.forEach env visit = (.error .closed, c) := by
  have hrefused : c.tryNext env = (.error .closed, c) := move_of_released h env .tryNext
  rw [forEach]
  split <;> simp_all

/-- Reading to the end only loads rows, and it comes to the end only if the cursor is open. -/
theorem proper_forEach (h : c.handle.Proper) (env : ε) (visit : Codec fmt → α × Codec fmt) :
    (c.forEach env visit).2.handle.Proper ∧
      ∀ values, (c.forEach env visit).1 = .ok values →
        (c.forEach env visit).2.handle.released = false := by
  fun_induction c.forEach env visit with
  | case1 c moved htry value codec hvisit values last hrest ih =>
    have hmoved : moved.handle.Proper := by
      have hproper := proper_move h env .tryNext
      rwa [move, htry] at hproper
    obtain ⟨hproper, hopen⟩ := ih hmoved
    rw [hrest] at hproper hopen
    refine ⟨hproper, fun all hall => ?_⟩
    cases values with
    | error e => cases hall
    | ok values => exact hopen values rfl
  | case2 c last htry =>
    have hproper := proper_move h env .tryNext
    have hreleased := c.released_move env .tryNext
    rw [move, htry] at hproper hreleased
    refine ⟨hproper, fun _ _ => ?_⟩
    -- A closed cursor would have refused the move instead of finding the end.
    rw [hreleased, ← Bool.not_eq_true]
    intro hclosed
    have hrefused := move_of_released hclosed env .tryNext
    rw [move, htry] at hrefused
    cases hrefused
  | case3 c e last htry =>
    have hproper := proper_move h env .tryNext
    rw [move, htry] at hproper
    refine ⟨hproper, fun _ hvalues => ?_⟩
    cases hvalues

end StreamingCursor

/-! ## A cursor and what becomes of it -/

/-- A call of a cursor of either kind. A heap cursor has more calls than a streaming cursor. -/
inductive CursorCall (ε : Type)
  | move (env : ε) (m : Move)
  | use (change : (fmt : Format) → Codec fmt → Codec fmt)
  | close
  | withFormat (target : Format) (reEncode : Bool)
  | materialize (env : ε) (target : Format)
  | heap (call : HeapCall)
  | intoCodecs

/-- A cursor in use, or the handle of one that has gone. -/
inductive Life (σ : Type)
  | held {fmt : Format} (c : Cursor σ fmt)
  | gone (handle : Option (Handle σ))

namespace Cursor

def moved (env : ε) (c : Cursor σ fmt) : Move → Cursor σ fmt
  | .hasNext => (c.hasNext env).2
  | .next => (c.next env).2
  | .tryNext => (c.tryNext env).2

/-- What becomes of a cursor in a call. A call that a streaming cursor does not have leaves it
    as it is. -/
def after (c : Cursor σ fmt) : CursorCall ε → Life σ
  | .move env m => .held (c.moved env m)
  | .use change => .held (c.onCurrent (fun codec => ((), change fmt codec))).2
  | .close => .held c.close
  | .withFormat target reEncode => .held (c.withFormat target reEncode)
  | .materialize env target =>
    match c.materialize env target with
    | .ok taken => .held (.heap taken)
    | .error (_, handle) => .gone handle
  | .heap call =>
    match c with
    | .stream c => .held (.stream c)
    | .heap c => .held (.heap (c.after call))
  | .intoCodecs =>
    match c with
    | .stream c => .held (.stream c)
    | .heap c => .gone c.intoCodecs.2.handle?

end Cursor

namespace Life

/-- A streaming cursor over a source of which nothing has been asked. -/
def opened (source : σ) (fmt : Format) : Life (Watched σ) :=
  .held (.stream (.ofSource { source } : StreamingCursor (Watched σ) fmt))

def after (life : Life σ) (call : CursorCall ε) : Life σ :=
  match life with
  | .held c => c.after call
  | .gone handle => .gone handle

def run (life : Life σ) (calls : List (CursorCall ε)) : Life σ := calls.foldl after life

/-- Drop the cursor, if there still is one. -/
def drop : Life σ → Option (Handle σ)
  | .held c => c.drop
  | .gone handle => handle

end Life

/-- The cursor holds a handle that has been used in order, and it is closed if and only if the
    handle has been released. -/
def Cursor.Owns (c : Cursor (Watched σ) fmt) : Prop :=
  ∃ handle, c.handle? = some handle ∧ handle.Proper ∧ handle.released = c.isClosed

namespace Life

/-- A handle has been used in order; that of a cursor that has gone has been released. -/
def Sound : Life (Watched σ) → Prop
  | .held c => c.Owns
  | .gone handle? => ∃ handle, handle? = some handle ∧ handle.Proper ∧ handle.released = true

/-- The cursor, if there still is one, is closed. -/
def Closed : Life σ → Prop
  | .held c => c.isClosed = true
  | .gone _ => True

end Life

namespace Cursor

/-- What has become of the cursor is sound if the cursor was, and closed if it was. -/
def Becomes (c : Cursor (Watched σ) fmt) (life : Life (Watched σ)) : Prop :=
  (c.Owns → life.Sound) ∧ (c.isClosed = true → life.Closed)

theorem owns_stream {c : StreamingCursor (Watched σ) fmt} (h : c.handle.Proper) :
    (Cursor.stream c).Owns :=
  ⟨c.handle, rfl, h, rfl⟩

theorem proper_of_owns {c : StreamingCursor (Watched σ) fmt} (h : (Cursor.stream c).Owns) :
    c.handle.Proper := by
  obtain ⟨handle, hhandle, hproper, -⟩ := h
  obtain rfl : c.handle = handle := Option.some.inj hhandle
  exact hproper

/-- When the cursor goes and releases its handle, that has been used in order to the end. -/
theorem Owns.gone {c : Cursor (Watched σ) fmt} (h : c.Owns) :
    (Life.gone (c.handle?.map Handle.release)).Sound := by
  obtain ⟨handle, hhandle, hproper, -⟩ := h
  rw [hhandle]
  exact ⟨handle.release, rfl, hproper.release, handle.released_release⟩

/-- A stream that is moved or used stays what it is. -/
theorem becomes_stream {other : Format} {c : StreamingCursor (Watched σ) fmt}
    {d : StreamingCursor (Watched σ) other} (hproper : c.handle.Proper → d.handle.Proper)
    (hreleased : d.handle.released = c.handle.released) :
    (Cursor.stream c).Becomes (.held (.stream d)) :=
  ⟨fun howns => owns_stream (hproper (proper_of_owns howns)), hreleased.trans⟩

/-- And so does a heap cursor. -/
theorem becomes_heap {other : Format} {c : HeapCursor (Watched σ) fmt}
    {d : HeapCursor (Watched σ) other} (horigin : d.origin = c.origin)
    (hclosed : d.closed = c.closed) :
    (Cursor.heap c).Becomes (.held (.heap d)) := by
  refine ⟨fun ⟨handle, hhandle, hproper, hreleased⟩ => ⟨handle, ?_, hproper, ?_⟩, ?_⟩
  · exact (congrArg Option.join horigin).trans hhandle
  · exact hreleased.trans hclosed.symm
  · exact hclosed.trans

theorem becomes_moved (c : Cursor (Watched σ) fmt) (env : ε) (m : Move) :
    c.Becomes (.held (c.moved env m)) := by
  cases c with
  | stream c =>
    have hmoved : (Cursor.stream c).moved env m = .stream (c.move env m).2 := by
      cases m <;> rfl
    rw [hmoved]
    exact becomes_stream (fun hproper => c.proper_move hproper env m) (c.released_move env m)
  | heap c =>
    cases m with
    | hasNext => exact becomes_heap rfl rfl
    | next => exact becomes_heap c.sameOrigin_next.1 c.sameOrigin_next.2
    | tryNext => exact becomes_heap c.sameOrigin_tryNext.1 c.sameOrigin_tryNext.2

theorem becomes_onCurrent (c : Cursor (Watched σ) fmt) (use : Codec fmt → α × Codec fmt) :
    c.Becomes (.held (c.onCurrent use).2) := by
  cases c with
  | stream c =>
    have hhandle := c.handle_onCurrent use
    exact becomes_stream (fun hproper => hhandle ▸ hproper) (congrArg Handle.released hhandle)
  | heap c => exact becomes_heap (c.sameOrigin_onCurrent use).1 (c.sameOrigin_onCurrent use).2

theorem becomes_withFormat (c : Cursor (Watched σ) fmt) (target : Format) (reEncode : Bool) :
    c.Becomes (.held (c.withFormat target reEncode)) := by
  cases c with
  | stream c => exact becomes_stream id rfl
  | heap c => exact becomes_heap rfl rfl

theorem isClosed_close (c : Cursor (Watched σ) fmt) : c.close.isClosed = true := by
  cases c with
  | stream c =>
    change c.close.handle.released = true
    rw [c.handle_close]
    exact c.handle.released_release
  | heap c =>
    change c.close.closed = true
    unfold HeapCursor.close
    split
    · assumption
    · rfl

theorem handle?_close (c : Cursor (Watched σ) fmt) (h : c.Owns) :
    c.close.handle? = c.handle?.map Handle.release := by
  obtain ⟨handle, hhandle, -, hreleased⟩ := h
  cases c with
  | stream c => exact congrArg some c.handle_close
  | heap c =>
    change c.close.handle? = _
    unfold HeapCursor.close
    split
    next hclosed =>
      have hkept : handle.release = handle := if_pos (hreleased.trans hclosed)
      change c.handle? = c.handle?.map Handle.release
      rw [show c.handle? = some handle from hhandle, Option.map_some, hkept]
    · exact c.handle?_release

theorem becomes_close (c : Cursor (Watched σ) fmt) : c.Becomes (.held c.close) := by
  refine ⟨fun howns => ?_, fun _ => c.isClosed_close⟩
  have hclose := c.handle?_close howns
  obtain ⟨handle, hhandle, hproper, -⟩ := howns
  refine ⟨handle.release, ?_, hproper.release, ?_⟩
  · rw [hclose, hhandle]
    rfl
  · rw [handle.released_release, c.isClosed_close]

theorem becomes_materialize (c : Cursor (Watched σ) fmt) (env : ε) (target : Format) :
    c.Becomes (c.after (.materialize env target)) := by
  simp only [after, materialize]
  cases c with
  | stream c =>
    simp only [StreamingCursor.materialize]
    refine ⟨fun howns => ?sound, fun hclosed => ?closed⟩
    case sound =>
      -- A stream that fails is dropped; one that has been read to its end becomes the origin.
      have hread := c.proper_forEach (proper_of_owns howns) env (Codec.take target)
      rcases hforEach : c.forEach env (Codec.take target) with ⟨e | codecs, last⟩
      all_goals rw [hforEach] at hread
      · exact (owns_stream hread.1).gone
      · exact ⟨last.handle, rfl, hread.1, hread.2 codecs rfl⟩
    case closed =>
      rw [c.forEach_of_released hclosed]
      trivial
  | heap c =>
    simp only [HeapCursor.materialize]
    cases hclosed : c.closed with
    | true =>
      rw [c.forEach_of_closed hclosed]
      refine ⟨fun howns => ?_, fun _ => trivial⟩
      change (Life.gone c.release.handle?).Sound
      rw [c.handle?_release]
      exact howns.gone
    | false =>
      rw [HeapCursor.forEach, if_neg (Bool.eq_false_iff.mp hclosed)]
      refine ⟨fun howns => ?_, fun hrefused => ?_⟩
      · obtain ⟨handle, hhandle, hproper, hreleased⟩ := howns
        exact ⟨handle, hhandle, hproper, hreleased.trans hclosed⟩
      · cases hclosed.symm.trans hrefused

theorem becomes_after (c : Cursor (Watched σ) fmt) (call : CursorCall ε) :
    c.Becomes (c.after call) := by
  cases call with
  | move env m => exact c.becomes_moved env m
  | use change => exact c.becomes_onCurrent _
  | close => exact c.becomes_close
  | withFormat target reEncode => exact c.becomes_withFormat target reEncode
  | materialize env target => exact c.becomes_materialize env target
  | heap call =>
    cases c with
    | stream c => exact ⟨id, id⟩
    | heap c => exact becomes_heap (c.sameOrigin_after call).1 (c.sameOrigin_after call).2
  | intoCodecs =>
    cases c with
    | stream c => exact ⟨id, id⟩
    | heap c =>
      refine ⟨fun howns => ?_, fun _ => trivial⟩
      change (Life.gone (Cursor.heap c).close.handle?).Sound
      rw [handle?_close _ howns]
      exact howns.gone

end Cursor

/-! ## Whole lives -/

/-- A closed cursor refuses to move and to show a row, and a heap cursor also what only a heap
    cursor can do. -/
structure Cursor.Refuses (c : Cursor σ fmt) : Prop where
  hasNext : ∀ env : ε, (c.hasNext env).1 = .error .closed
  next : ∀ env : ε, (c.next env).1 = .error .closed
  tryNext : ∀ env : ε, (c.tryNext env).1 = .error .closed
  currentCodec : c.currentCodec = .error .closed
  onCurrent : ∀ {α : Type} (use : Codec fmt → α × Codec fmt), (c.onCurrent use).1 = .error .closed
  heap : ∀ rows : HeapCursor σ fmt, c = .heap rows → rows.Refuses

theorem Cursor.refuses_of_closed (c : Cursor σ fmt) (h : c.isClosed = true) : c.Refuses := by
  cases c with
  | stream c =>
    have hrefused (env : ε) : c.hasNext env = (.error .closed, c) := c.hasNext_of_released env h
    have hcodec : c.currentCodec = .error .closed := if_pos h
    exact {
      hasNext := fun env => by simp only [Cursor.hasNext, hrefused]
      next := fun env => by simp only [Cursor.next, StreamingCursor.next, hrefused]
      tryNext := fun env => by simp only [Cursor.tryNext, StreamingCursor.tryNext, hrefused]
      currentCodec := hcodec
      onCurrent := fun use => by simp only [Cursor.onCurrent, StreamingCursor.onCurrent, hcodec]
      heap := fun rows hrows => nomatch hrows }
  | heap c =>
    have hrefused : c.hasNext = .error .closed := if_pos h
    have hrow := c.row_of_closed h
    exact {
      hasNext := fun env => hrefused
      next := fun env => by simp only [Cursor.next, HeapCursor.next, hrefused]
      tryNext := fun env => by simp only [Cursor.tryNext, HeapCursor.tryNext, hrefused]
      currentCodec := by
        rw [Cursor.currentCodec, HeapCursor.currentCodec, hrow]
        rfl
      onCurrent := fun use => by simp only [Cursor.onCurrent, HeapCursor.onCurrent, hrow]
      heap := by
        rintro rows ⟨⟩
        exact c.refuses_of_closed h }

namespace Life

theorem sound_opened (source : σ) (fmt : Format) : (opened source fmt).Sound :=
  Cursor.owns_stream (Handle.Proper.opened source)

theorem Sound.after {life : Life (Watched σ)} (h : life.Sound) (call : CursorCall ε) :
    (life.after call).Sound := by
  cases life with
  | held c => exact (c.becomes_after call).1 h
  | gone handle => exact h

theorem Closed.after {life : Life (Watched σ)} (h : life.Closed) (call : CursorCall ε) :
    (life.after call).Closed := by
  cases life with
  | held c => exact (c.becomes_after call).2 h
  | gone handle => exact h

theorem Sound.run {life : Life (Watched σ)} (h : life.Sound) (calls : List (CursorCall ε)) :
    (life.run calls).Sound := by
  induction calls generalizing life with
  | nil => exact h
  | cons call rest ih => exact ih (h.after call)

theorem Closed.run {life : Life (Watched σ)} (h : life.Closed) (calls : List (CursorCall ε)) :
    (life.run calls).Closed := by
  induction calls generalizing life with
  | nil => exact h
  | cons call rest ih => exact ih (h.after call)

/-- The call that closes a cursor leaves a closed cursor, or none, and so do all later calls. -/
theorem closed_run (life : Life (Watched σ)) (before later : List (CursorCall ε)) :
    (life.run (before ++ .close :: later)).Closed := by
  have hclosed : ((life.run before).after (.close : CursorCall ε)).Closed := by
    cases life.run before with
    | held c => exact c.isClosed_close
    | gone handle => trivial
  rw [run, List.foldl_append]
  exact hclosed.run later

/-- When it is dropped, the handle has been released. -/
theorem Sound.drop {life : Life (Watched σ)} (h : life.Sound) :
    ∃ handle, life.drop = some handle ∧ handle.Proper ∧ handle.released = true := by
  cases life with
  | held c => exact Cursor.Owns.gone h
  | gone handle => exact h

/-- The cursor, if there still is one, refuses what can be refused. -/
def Refuses : Life σ → Prop
  | .held c => c.Refuses
  | .gone _ => True

theorem Closed.refuses {life : Life σ} (h : life.Closed) : life.Refuses := by
  cases life with
  | held c => exact c.refuses_of_closed h
  | gone handle => trivial

/-- Whatever is done with a cursor and with what becomes of it, until what is left is dropped,
    its source is closed exactly once, and it is asked for no row after that. Once it has been
    closed, the cursor refuses to move, to show a row and to be edited. -/
theorem closes_once (source : σ) (fmt : Format) :
    (∀ calls : List (CursorCall ε), ∃ handle, ((opened source fmt).run calls).drop = some handle ∧
      ∃ loads : List (Except StoreError (Option Parts)),
        handle.source.calls = loads.map .load ++ [.close]) ∧
    ∀ before later : List (CursorCall ε),
      ((opened source fmt).run (before ++ .close :: later)).Refuses := by
  refine ⟨fun calls => ?_, fun before later => ?_⟩
  · obtain ⟨handle, hdrop, ⟨loads, hloads⟩, hreleased⟩ := ((sound_opened source fmt).run calls).drop
    rw [hreleased] at hloads
    exact ⟨handle, hdrop, loads, hloads⟩
  · exact (closed_run (opened source fmt) before later).refuses

end Life

end FeatureStore
