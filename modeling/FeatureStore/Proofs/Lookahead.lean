-- SUMMARY: A streaming cursor comes to every row of its source, in order, once, and as it was supplied.
import FeatureStore.Proofs.Coherence
import FeatureStore.Proofs.Moves

/-!
# Lookahead

A streaming cursor is used in any order: it is asked for the next row, moved, read, edited
and put into another format. The source may fail at any load and supply the row at the
next one. All the same the rows that have been supplied are at any time those that the
cursor has passed and the one that it keeps, if it keeps one; and it had each of them as it
was supplied, whatever had been done with the row before.

What is ahead of a cursor is the row that it keeps, or nothing behind the end, or what the
next load comes to. This alone decides what a move answers, and whether it comes to a row.
So a source that supplies its rows without a failure is read to its end, by one move for
each row.
-/

namespace FeatureStore

variable {ε σ : Type} [RowSource ε σ] {fmt : Format}

/-! ## Codecs that hold a row -/

/-- The error of parts that cannot be put together is none of a rejected write. -/
theorem Format.isRejection_of_rebuild {p : Parts} {e : CodecError}
    (h : fmt.rebuild p = .error e) : e.isRejection = false := by
  cases hgeometry : p.geometry.withParsed with
  | error unread =>
    rw [rebuild_of_unparsed hgeometry] at h
    obtain rfl : unread = e := Except.error.inj h
    unfold GeometryCache.withParsed at hgeometry
    split at hgeometry
    · split at hgeometry
      · cases hgeometry
      · cases hgeometry
        rfl
    · cases hgeometry
  | ok cache =>
    rw [rebuild_of_withParsed hgeometry] at h
    cases fmt with
    | geo =>
      simp only [assemble, Feature.assemble] at h
      split at h
      · cases h
        rfl
      · cases h
    | json =>
      simp only [assemble, Json.assemble] at h
      split at h
      · cases h
        rfl
      · cases h

namespace Codec

variable {c : Codec fmt} {row : Parts}

/-- The codec holds a row of a source and nothing else: its parts are those of the row, up to
    a parsed form of the geometry, and a feature or an error that it has comes from the row. -/
structure HoldsRow (c : Codec fmt) (row : Parts) : Prop where
  decoded : c.decoded = true
  parts : ∃ cache, row.geometry.Yields cache ∧ c.parts = { row with geometry := cache }
  feature : ∀ f, c.feature = some f → fmt.rebuild row = .ok f
  error : ∀ e, c.error = some e → fmt.rebuild row = .error e

/-- Any codec of just the parts of the row holds it. -/
theorem holdsRow_ofParts {parts : Parts}
    (h : ∃ cache, row.geometry.Yields cache ∧ parts = { row with geometry := cache }) :
    (ofParts parts : Codec fmt).HoldsRow row :=
  ⟨rfl, h, by nofun, by nofun⟩

namespace HoldsRow

theorem rebuild_eq (h : c.HoldsRow row) : fmt.rebuild c.parts = fmt.rebuild row := by
  obtain ⟨cache, hcache, hparts⟩ := h.parts
  rw [hparts]
  exact Format.rebuild_congr row.op hcache.readParsed_eq

theorem encode (h : c.HoldsRow row) (force : Bool) : (c.encode force).HoldsRow row := by
  obtain ⟨held, hheld, hparts⟩ := h.parts
  rcases c.encode_cases force with
    hsame | ⟨-, cache, hcache, ⟨f, hrebuild, hdone⟩ | ⟨e, hrebuild, hfail⟩⟩
  · rwa [hsame]
  all_goals
    rw [h.rebuild_eq] at hrebuild
    have hyields : row.geometry.Yields cache := by
      rw [hparts] at hcache
      exact hheld.trans hcache
    have hcached : (c.withGeometry cache).parts = { row with geometry := cache } := by
      rw [withGeometry, hparts]
  · rw [hdone]
    refine ⟨h.decoded, ⟨cache, hyields, hcached⟩, fun other hother => ?_, fun other hother => ?_⟩
    · rw [hrebuild, Option.some.inj hother]
    · cases hother
  · rw [hfail]
    refine ⟨h.decoded, ⟨cache, hyields, hcached⟩, h.feature, fun other hother => ?_⟩
    rw [hrebuild, Option.some.inj hother]

/-- The row stays the same when its codec is moved by its parts. -/
theorem move (h : c.HoldsRow row) (target : Format) (reEncode : Bool) :
    (c.move target reEncode).HoldsRow row := by
  have hsync : c.sync = c := by simp [sync, h.decoded]
  have hmove : c.move target reEncode
      = if reEncode then (ofParts c.parts).encode true else ofParts c.parts := by
    unfold Codec.move
    rw [hsync, withParts]
    cases herror : c.error with
    | none => rfl
    | some e =>
      have hrejection := Format.isRejection_of_rebuild (h.error e herror)
      simp only [hrejection]
      rfl
  have hparts : (ofParts c.parts : Codec target).HoldsRow row := holdsRow_ofParts h.parts
  rw [hmove]
  cases reEncode with
  | false => exact hparts
  | true => exact hparts.encode true

theorem retarget (h : c.HoldsRow row) (target : Format) (reEncode : Bool) :
    (c.retarget target reEncode).HoldsRow row := by
  cases reEncode with
  | true => exact h.move target true
  | false =>
    by_cases hsame : fmt = target
    · subst hsame
      rwa [retarget_self]
    · rw [c.retarget_of_ne hsame]
      exact h.move target false

end HoldsRow

/-- The codec holds a row. If nothing has been assembled on the way, it is that of the row when
    it arrives. -/
structure Delivers (plain : Prop) (c : Codec fmt) (row : Parts) : Prop where
  holds : c.HoldsRow row
  same : plain → c = arrived row

theorem delivers_arrived (plain : Prop) (row : Parts) :
    (arrived row : Codec fmt).Delivers plain row :=
  ⟨holdsRow_ofParts ⟨row.geometry, .inl rfl, rfl⟩, fun _ => rfl⟩

theorem Delivers.retarget {plain : Prop} (h : c.Delivers plain row) {target : Format}
    {reEncode : Bool} (hplain : plain → reEncode = false) :
    (c.retarget target reEncode).Delivers plain row := by
  refine ⟨h.holds.retarget target reEncode, fun hsame => ?_⟩
  rw [h.same hsame, hplain hsame]
  exact retarget_arrived row target

end Codec

/-- The codecs are those of the rows, one for each and in their order. -/
def Arrived (plain : Prop) (rows : List Parts) (arrivals : List ((fmt : Format) × Codec fmt)) :
    Prop :=
  List.Forall₂ (fun row arrival => arrival.2.Delivers plain row) rows arrivals

/-! ## What is ahead -/

namespace Watched

def ended (w : Watched σ) : Bool := w.outcomes.any (· matches .ok none)

theorem ended_iff {w : Watched σ} : w.ended = true ↔ .ok none ∈ w.outcomes := by
  unfold ended
  rw [List.any_eq_true]
  constructor
  · rintro ⟨outcome, hmem, hend⟩
    split at hend
    · exact hmem
    · cases hend
  · exact fun hmem => ⟨_, hmem, rfl⟩

/-- What is ahead of a cursor that keeps these rows, and the source when that is known: the row
    that is kept, or nothing behind the end, or what the next load comes to. -/
def ahead (env : ε) (w : Watched σ) : List Parts → Except StoreError (Option Parts) × Watched σ
  | row :: _ => (.ok (some row), w)
  | [] => if w.ended then (.ok none, w) else RowSource.load env w

theorem ahead_of_end {w : Watched σ} (env : ε) (h : .ok none ∈ w.outcomes) :
    w.ahead env [] = (.ok none, w) := if_pos (ended_iff.mpr h)

theorem ahead_of_going {w : Watched σ} (env : ε) (h : .ok none ∉ w.outcomes) :
    w.ahead env [] = RowSource.load env w := if_neg (h ∘ ended_iff.mp)

end Watched

namespace Move

/-- What a move answers, by what is ahead. -/
def answer : Move → Except StoreError (Option Parts) → Except CursorError Bool
  | _, .error failure => .error (.store failure)
  | _, .ok (some _) => .ok true
  | .next, .ok none => .error .exhausted
  | _, .ok none => .ok false

/-- The row ahead, if the move goes there. -/
def passes : Move → Except StoreError (Option Parts) → List Parts
  | .hasNext, _ => []
  | _, outcome => (Watched.loaded? outcome).toList

/-- The row ahead, if the move leaves it there. -/
def keeps : Move → Except StoreError (Option Parts) → List Parts
  | .hasNext, outcome => (Watched.loaded? outcome).toList
  | _, _ => []

end Move

/-! ## Journeys -/

/-- A call of a cursor that is open and stays so. -/
inductive StreamCall (ε : Type)
  | move (env : ε) (m : Move)
  | use (change : (fmt : Format) → Codec fmt → Codec fmt)
  | withFormat (target : Format) (reEncode : Bool)

/-- No row is assembled when it is put into another format. -/
def StreamCall.Plain (calls : List (StreamCall ε)) : Prop :=
  ∀ target, .withFormat target true ∉ calls

/-- Whether a move has ended on another row. -/
def Move.arrives : Move → Except CursorError Bool → Bool
  | .next, .ok true | .tryNext, .ok true => true
  | _, _ => false

/-- Whether a move has stepped behind the last row. -/
def Move.ends : Except CursorError Bool → Bool
  | .error .exhausted => true
  | _ => false

/-- A cursor in use, with the codecs of the rows that it has come to, as they were then, and
    whether it has stepped behind the last row. -/
structure Journey (σ : Type) where
  fmt : Format
  cursor : StreamingCursor (Watched σ) fmt
  arrivals : List ((fmt : Format) × Codec fmt) := []
  exhausted : Bool := false

namespace Journey

/-- A journey over a source of which nothing has been asked. -/
def opened (source : σ) (fmt : Format) : Journey σ where
  fmt := fmt
  cursor := .ofSource { source }

def source (j : Journey σ) : Watched σ := j.cursor.handle.source

def step (j : Journey σ) : StreamCall ε → Journey σ
  | .move env m =>
    let (answer, cursor) := j.cursor.move env m
    { fmt := j.fmt
      cursor
      arrivals :=
        if m.arrives answer then j.arrivals ++ [⟨j.fmt, cursor.current.codec⟩] else j.arrivals
      exhausted := j.exhausted || Move.ends answer }
  | .use change =>
    { j with cursor := (j.cursor.onCurrent (fun codec => ((), change j.fmt codec))).2 }
  | .withFormat target reEncode =>
    { j with fmt := target, cursor := j.cursor.withFormat target reEncode }

theorem source_move (j : Journey σ) (env : ε) (m : Move) :
    (j.step (.move env m)).source = (j.cursor.move env m).2.handle.source := rfl

theorem source_use (j : Journey σ) (change : (fmt : Format) → Codec fmt → Codec fmt) :
    (j.step (.use change : StreamCall ε)).source = j.source :=
  congrArg Handle.source (j.cursor.handle_onCurrent _)

def run (j : Journey σ) (calls : List (StreamCall ε)) : Journey σ := calls.foldl step j

end Journey

/-! ## What has become of the rows -/

/-- What a cursor knows of the row ahead fits the outcomes of its source so far, and the rows
    that it keeps. -/
def Outlook.Fits (plain : Prop) (outcomes : List (Except StoreError (Option Parts)))
    (kept : List Parts) : Outlook fmt → Prop
  | .unread => kept = [] ∧ .ok none ∉ outcomes
  | .kept codec => (∃ row, kept = [row] ∧ codec.Delivers plain row) ∧ .ok none ∉ outcomes
  | .ended => kept = [] ∧ .ok none ∈ outcomes

theorem Outlook.Fits.length_le {plain : Prop}
    {outcomes : List (Except StoreError (Option Parts))} {kept : List Parts}
    {outlook : Outlook fmt} (h : outlook.Fits plain outcomes kept) : kept.length ≤ 1 := by
  cases outlook with
  | unread =>
    rw [h.1]
    exact Nat.zero_le 1
  | kept codec =>
    obtain ⟨⟨row, rfl, -⟩, -⟩ := h
    exact Nat.le_refl 1
  | ended =>
    rw [h.1]
    exact Nat.zero_le 1

/-- A row that is kept is the row ahead. -/
theorem Outlook.Fits.eq_kept {plain : Prop} {outcomes : List (Except StoreError (Option Parts))}
    {row : Parts} {outlook : Outlook fmt} (h : outlook.Fits plain outcomes [row]) :
    ∃ codec, outlook = .kept codec ∧ codec.Delivers plain row ∧ .ok none ∉ outcomes := by
  cases outlook with
  | unread => cases h.1
  | kept codec =>
    obtain ⟨⟨_, hkept, hdelivers⟩, hgoing⟩ := h
    cases hkept
    exact ⟨codec, rfl, hdelivers, hgoing⟩
  | ended => cases h.1

theorem Outlook.Fits.eq_ended {plain : Prop} {outcomes : List (Except StoreError (Option Parts))}
    {kept : List Parts} {outlook : Outlook fmt} (h : outlook.Fits plain outcomes kept)
    (hend : .ok none ∈ outcomes) : outlook = .ended := by
  cases outlook with
  | unread => exact absurd hend h.2
  | kept codec => exact absurd hend h.2
  | ended => rfl

/-- It fits as well when the rows are put into another format. -/
theorem Outlook.Fits.retarget {plain : Prop}
    {outcomes : List (Except StoreError (Option Parts))} {kept : List Parts}
    {outlook : Outlook fmt} (h : outlook.Fits plain outcomes kept) (target : Format)
    {reEncode : Bool} (hplain : plain → reEncode = false) :
    (outlook.retarget target reEncode).Fits plain outcomes kept := by
  cases outlook with
  | unread => exact h
  | kept codec =>
    obtain ⟨⟨row, hkept, hdelivers⟩, hgoing⟩ := h
    exact ⟨⟨row, hkept, hdelivers.retarget hplain⟩, hgoing⟩
  | ended => exact h

namespace Journey

variable {plain : Prop} {j : Journey σ} {passed kept : List Parts} {env : ε}

/-- The position of a cursor that has passed so many rows. The largest integer of sixty-four bits
    is the last position that there is. -/
def placeAfter (count : Nat) (exhausted : Bool) : Int :=
  min (if exhausted then count else count - 1) Int64.maxValue.toInt

/-- Moving onto one more row adds one to the position, and so does stepping behind the last. -/
theorem shift_placeAfter (count : Nat) :
    shift (placeAfter count false) 1 = placeAfter (count + 1) false ∧
      shift (placeAfter count false) 1 = placeAfter count true := by
  have hmax : Int64.maxValue.toInt = 9223372036854775807 := rfl
  have hmin : Int64.minValue.toInt = -9223372036854775808 := rfl
  simp only [shift, placeAfter, if_pos, Bool.false_eq_true, if_false]
  omega

/-- The rows that have been supplied are those that the cursor has passed and those that it
    keeps. It has arrived at each row that it has passed, and is at the last of them or behind
    it. -/
structure Accounted (plain : Prop) (j : Journey σ) (passed kept : List Parts) : Prop where
  sound : j.cursor.Sound
  rows : j.source.rows = passed ++ kept
  arrivals : Arrived plain passed j.arrivals
  ahead : j.cursor.outlook.Fits plain j.source.outcomes kept
  exhausted : j.exhausted = j.cursor.exhausted
  position : j.cursor.position = placeAfter passed.length j.cursor.exhausted
  onRow : j.cursor.current.valid = true ↔ passed ≠ [] ∧ j.cursor.exhausted = false

theorem accounted_opened (plain : Prop) (source : σ) (fmt : Format) :
    (opened source fmt).Accounted plain [] [] where
  sound := StreamingCursor.sound_ofSource _
  rows := rfl
  arrivals := .nil
  ahead := ⟨rfl, List.not_mem_nil⟩
  exhausted := rfl
  position := rfl
  onRow := by simp [opened, StreamingCursor.ofSource]

namespace Accounted

/-- Asking for the next row keeps the account. It tells what is ahead, and a row ahead is kept. -/
theorem ask (h : j.Accounted plain passed kept) (env : ε) :
    ∃ cursor,
      { j with cursor }.Accounted plain passed (Move.hasNext.keeps (j.source.ahead env kept).1) ∧
      cursor.handle.source = (j.source.ahead env kept).2 ∧
      j.cursor.hasNext env = (Move.hasNext.answer (j.source.ahead env kept).1, cursor) ∧
      ((j.source.ahead env kept).1 = .ok none → .ok none ∈ cursor.handle.source.outcomes) := by
  have hahead := h.ahead
  rcases StreamingCursor.hasNext_cases h.sound.isOpen env with
    ⟨codec, houtlook, hnext⟩ | ⟨houtlook, hnext⟩ | ⟨hunread, hload⟩
  · rw [houtlook] at hahead
    obtain ⟨⟨row, rfl, -⟩, -⟩ := hahead
    exact ⟨j.cursor, h, rfl, hnext, nofun⟩
  · rw [houtlook] at hahead
    obtain ⟨rfl, hend⟩ := hahead
    rw [Watched.ahead_of_end env hend]
    exact ⟨j.cursor, h, rfl, hnext, fun _ => hend⟩
  -- Only a cursor that knows nothing of the row ahead makes a load, and it keeps no row.
  rw [hunread] at hahead
  obtain ⟨rfl, hgoing⟩ := hahead
  have hpassed : j.cursor.handle.source.rows = passed := by
    rw [← List.append_nil passed]
    exact h.rows
  rw [Watched.ahead_of_going env hgoing]
  rcases hload with ⟨row, after, hload, hnext⟩ | ⟨after, hload, hnext⟩ |
    ⟨failure, after, hload, hnext⟩
  all_goals
    have hrows := Watched.rows_load hload
    have hend := Watched.end_mem_load hload
    rw [hpassed] at hrows
    rw [source, hload]
  · have hstill : .ok none ∉ after.outcomes := fun hmem => (hend.mp hmem).elim hgoing nofun
    refine ⟨j.cursor.keeping after row, ?_, rfl, hnext, nofun⟩
    exact { h with
      sound := h.sound.keeping hunread after row
      rows := hrows
      ahead := ⟨⟨row, rfl, Codec.delivers_arrived plain row⟩, hstill⟩ }
  · have hended : .ok none ∈ after.outcomes := hend.mpr (.inr rfl)
    refine ⟨j.cursor.ending after, ?_, rfl, hnext, fun _ => hended⟩
    exact { h with
      sound := h.sound.ending after
      rows := hrows
      ahead := ⟨rfl, hended⟩ }
  · have hstill : .ok none ∉ after.outcomes := fun hmem => (hend.mp hmem).elim hgoing nofun
    have hagain := StreamingCursor.outlook_missing hunread after
    refine ⟨j.cursor.missing after, ?_, rfl, hnext, nofun⟩
    refine { h with sound := h.sound.missing hunread after, rows := hrows, ahead := ?_ }
    rw [hagain]
    exact ⟨rfl, hstill⟩

/-- The row that is kept becomes the current one. -/
theorem advance {row : Parts} (h : j.Accounted plain passed [row]) :
    Accounted plain
      { j with
        cursor := j.cursor.advance
        arrivals := j.arrivals ++ [⟨j.fmt, j.cursor.advance.current.codec⟩] }
      (passed ++ [row]) [] := by
  obtain ⟨codec, hkept, hdelivers, hgoing⟩ := h.ahead.eq_kept
  have hlookahead := (StreamingCursor.outlook_eq_kept hkept).2
  have hbefore := h.sound.exhausted_eq_false (hkept ▸ nofun)
  have hposition := h.position
  rw [hbefore] at hposition
  refine { h with
    sound := h.sound.advance hkept
    rows := ?_, arrivals := ?_, ahead := ?_, position := ?_, onRow := ?_ }
  · rw [List.append_nil]
    exact h.rows
  · refine List.rel_append h.arrivals (.cons ?_ .nil)
    simpa [StreamingCursor.advance, hlookahead] using hdelivers
  · rw [StreamingCursor.outlook_advance hbefore]
    exact ⟨rfl, hgoing⟩
  · rw [List.length_append]
    simp only [StreamingCursor.advance, hbefore, hposition]
    exact (shift_placeAfter _).1
  · simp [StreamingCursor.advance, hbefore, hlookahead]

/-- Behind the last row there is no current one. -/
theorem finish (h : j.Accounted plain passed kept) (hend : .ok none ∈ j.source.outcomes) :
    Accounted plain { j with cursor := j.cursor.finish, exhausted := true } passed kept := by
  have hended := h.ahead.eq_ended hend
  have hlast := StreamingCursor.outlook_finish hended
  have hahead := h.ahead
  rw [hended] at hahead
  cases hexhausted : j.cursor.exhausted with
  | true =>
    have hsame : j.cursor.finish = j.cursor := if_pos hexhausted
    rw [hsame]
    exact { h with exhausted := hexhausted.symm }
  | false =>
    have hfinish : j.cursor.finish = { j.cursor with
        current := {}, position := shift j.cursor.position 1, exhausted := true } := by
      simp [StreamingCursor.finish, hexhausted]
    have hposition := h.position
    rw [hexhausted] at hposition
    have hsound := h.sound.finish hended
    rw [hfinish] at hlast hsound ⊢
    refine { h with sound := hsound, ahead := ?_, exhausted := rfl, position := ?_, onRow := ?_ }
    · rw [hlast]
      exact hahead
    · rw [hposition]
      exact (shift_placeAfter _).2
    · simp

/-- The current row can be changed in any way. -/
theorem use (h : j.Accounted plain passed kept) (change : (fmt : Format) → Codec fmt → Codec fmt) :
    (j.step (.use change : StreamCall ε)).Accounted plain passed kept := by
  simp only [step, StreamingCursor.onCurrent]
  split
  · exact { h with sound := h.sound.withCurrent _ }
  · exact h

/-- The rows can be put into another format. -/
theorem withFormat (h : j.Accounted plain passed kept) {target : Format} {reEncode : Bool}
    (hplain : plain → reEncode = false) :
    (j.step (.withFormat target reEncode : StreamCall ε)).Accounted plain passed kept := by
  refine { h with sound := h.sound.withFormat target reEncode, ahead := ?_, onRow := ?_ }
  · have hahead := h.ahead.retarget target hplain
    rw [← j.cursor.outlook_withFormat target reEncode] at hahead
    exact hahead
  · refine Iff.trans ?_ h.onRow
    cases hvalid : j.cursor.current.valid with
    | true => simp [step, StreamingCursor.withFormat, StreamingCursor.retargetRow, hvalid]
    | false => simp [step, StreamingCursor.withFormat, StreamingCursor.retargetRow, hvalid]

/-- A move answers by what is ahead. -/
theorem answers (h : j.Accounted plain passed kept) (env : ε) (m : Move) :
    (j.cursor.move env m).1 = m.answer (j.source.ahead env kept).1 := by
  obtain ⟨cursor, -, -, hnext, -⟩ := h.ask env
  rcases houtcome : (j.source.ahead env kept).1 with failure | _ | row
  all_goals rw [houtcome] at hnext
  · rw [StreamingCursor.move_of_error hnext]
    cases m <;> rfl
  · rw [StreamingCursor.move_of_false hnext]
    cases m <;> rfl
  · rw [StreamingCursor.move_of_true hnext]
    cases m <;> rfl

/-- A move ends on a row that is ahead, unless it only asks. -/
theorem move (h : j.Accounted plain passed kept) (env : ε) (m : Move) :
    (j.step (.move env m)).Accounted plain (passed ++ m.passes (j.source.ahead env kept).1)
      (m.keeps (j.source.ahead env kept).1) := by
  obtain ⟨cursor, hasked, -, hnext, hend⟩ := h.ask env
  rcases houtcome : (j.source.ahead env kept).1 with failure | _ | row
  all_goals
    rw [houtcome] at hasked hnext hend
    simp only [Move.keeps, Watched.loaded?, Option.toList] at hasked
  · simp only [step, StreamingCursor.move_of_error hnext]
    cases m <;> simpa [Move.arrives, Move.ends, Move.passes, Move.keeps, Watched.loaded?]
  · simp only [step, StreamingCursor.move_of_false hnext]
    have hbehind := hasked.finish (hend rfl)
    cases m <;> simpa [Move.arrives, Move.ends, Move.passes, Move.keeps, Watched.loaded?]
  · simp only [step, StreamingCursor.move_of_true hnext]
    have hrow := hasked.advance
    cases m <;> simpa [Move.arrives, Move.ends, Move.passes, Move.keeps, Watched.loaded?]

/-- A move leaves the source as it is when it is known what is ahead. -/
theorem source_after (h : j.Accounted plain passed kept) (env : ε) (m : Move) :
    (j.step (.move env m)).source = (j.source.ahead env kept).2 := by
  obtain ⟨cursor, -, hsource, hnext, -⟩ := h.ask env
  rw [source_move, StreamingCursor.handle_move, hnext]
  exact hsource

/-- A call that is no move leaves the cursor where it is, and its source alone. -/
theorem stay (h : j.Accounted plain passed kept) (call : StreamCall ε)
    (hcall : ∀ env m, call ≠ .move env m)
    (hplain : plain → ∀ target, call ≠ .withFormat target true) :
    (j.step call).Accounted plain passed kept ∧ (j.step call).source = j.source := by
  cases call with
  | move env m => exact absurd rfl (hcall env m)
  | use change => exact ⟨h.use change, source_use j change⟩
  | withFormat target reEncode =>
    refine ⟨h.withFormat fun hsame => ?_, rfl⟩
    cases reEncode with
    | false => rfl
    | true => exact absurd rfl (hplain hsame target)

theorem step (h : j.Accounted plain passed kept) (call : StreamCall ε)
    (hplain : plain → ∀ target, call ≠ .withFormat target true) :
    ∃ passed kept, (j.step call).Accounted plain passed kept := by
  cases call with
  | move env m => exact ⟨_, _, h.move env m⟩
  | use change => exact ⟨passed, kept, (h.stay _ nofun hplain).1⟩
  | withFormat target reEncode => exact ⟨passed, kept, (h.stay _ nofun hplain).1⟩

theorem run (h : j.Accounted plain passed kept) (calls : List (StreamCall ε))
    (hplain : plain → StreamCall.Plain calls) :
    ∃ passed kept, (j.run calls).Accounted plain passed kept := by
  induction calls generalizing j passed kept with
  | nil => exact ⟨passed, kept, h⟩
  | cons call rest ih =>
    obtain ⟨_, _, hstep⟩ := h.step call fun hsame target hcall =>
      hplain hsame target (hcall ▸ List.mem_cons_self)
    exact ih hstep fun hsame target hmem => hplain hsame target (List.mem_cons_of_mem call hmem)

end Accounted

/-! ## What can be relied on -/

/-- The rows that the source has supplied are those that the journey has passed and those that
    its cursor keeps. -/
structure Stands (plain : Prop) (j : Journey σ) (passed kept : List Parts) : Prop where
  /-- Every row that has been supplied has been passed or is kept, in the order in which they
      have been supplied. -/
  supplied : j.source.rows = passed ++ kept
  /-- No more than one row is kept. -/
  atMostOne : kept.length ≤ 1
  /-- The cursor has come to each row that it has passed, once and in order, and then had just
      this row. -/
  arrivals : Arrived plain passed j.arrivals
  /-- The position is the number of rows once the end has been passed, and before that the index
      of the last row that has been passed. -/
  position : j.cursor.position = placeAfter passed.length j.exhausted
  /-- The end is passed after all rows. -/
  ended : j.exhausted = true → kept = [] ∧ .ok none ∈ j.source.outcomes

/-- What can be relied on at any point of a journey, and of the calls made there. -/
structure Orderly (plain : Prop) (j : Journey σ) (passed kept : List Parts) : Prop
    extends j.Stands plain passed kept where
  /-- A move answers by what is ahead: that there is a row, that there is none, or why it cannot
      be said. -/
  answers : ∀ (env : ε) (m : Move),
    (j.cursor.move env m).1 = m.answer (j.source.ahead env kept).1
  /-- It comes to the row ahead, or keeps it if it only asks, and loads nothing that is not
      needed to know what is ahead. -/
  progress : ∀ (env : ε) (m : Move),
    (j.step (.move env m)).Stands plain (passed ++ m.passes (j.source.ahead env kept).1)
        (m.keeps (j.source.ahead env kept).1) ∧
      (j.step (.move env m)).source = (j.source.ahead env kept).2
  /-- Any other call passes no row, and asks nothing of the source. -/
  rests : ∀ call : StreamCall ε, (∀ env m, call ≠ .move env m) →
    (plain → ∀ target, call ≠ .withFormat target true) →
      (j.step call).Stands plain passed kept ∧ (j.step call).source = j.source
  /-- A call loads nothing or once, and once only if no row is kept and the source has not come
      to its end. -/
  loads : ∀ call : StreamCall ε, (j.step call).source.outcomes = j.source.outcomes ∨
    (kept = [] ∧ .ok none ∉ j.source.outcomes ∧
      ∃ outcome, (j.step call).source.outcomes = j.source.outcomes ++ [outcome])
  /-- A move fails for the reason for which its load fails. -/
  failures : ∀ (env : ε) (m : Move) (failure : StoreError),
    (j.cursor.move env m).1 = .error (.store failure) ↔
      (j.step (.move env m)).source.outcomes = j.source.outcomes ++ [.error failure]
  /-- A move that comes neither to a row nor to the end, such as one that has failed, changes
      neither the position nor the current row. -/
  stays : ∀ (env : ε) (m : Move), m = .hasNext ∨ (j.cursor.move env m).1 ≠ .ok true →
    (j.cursor.move env m).1 ≠ .error .exhausted →
      (j.cursor.move env m).2.current = j.cursor.current ∧
        (j.cursor.move env m).2.position = j.cursor.position
  /-- The current row can be used unless the cursor is before the first row or behind the last
      one. -/
  accessors : ∀ {α : Type} (use : Codec j.fmt → α × Codec j.fmt),
    (j.cursor.onCurrent use).1 = if passed = [] ∨ j.exhausted = true
      then .error (.outOfBounds j.cursor.position) else .ok (use j.cursor.current.codec).1

namespace Accounted

/-- No row is kept unless one is known to be ahead. -/
theorem kept_of_unread (h : j.Accounted plain passed kept) (hunread : j.cursor.outlook = .unread) :
    kept = [] ∧ .ok none ∉ j.source.outcomes := by
  have hahead := h.ahead
  rw [hunread] at hahead
  exact hahead

theorem loads (h : j.Accounted plain passed kept) (call : StreamCall ε) :
    (j.step call).source.outcomes = j.source.outcomes ∨
      (kept = [] ∧ .ok none ∉ j.source.outcomes ∧
        ∃ outcome, (j.step call).source.outcomes = j.source.outcomes ++ [outcome]) := by
  cases call with
  | move env m =>
    rw [source_move]
    rcases StreamingCursor.move_loads h.sound.isOpen env m with
      ⟨hsame, -⟩ | ⟨hunread, -, outcome, hcalls, -⟩
    · rw [hsame]
      exact .inl rfl
    · obtain ⟨hkept, hgoing⟩ := h.kept_of_unread hunread
      exact .inr ⟨hkept, hgoing, outcome, Watched.outcomes_of_calls hcalls⟩
  | use change =>
    rw [source_use]
    exact .inl rfl
  | withFormat target reEncode => exact .inl rfl

theorem failures (h : j.Accounted plain passed kept) (env : ε) (m : Move) (failure : StoreError) :
    (j.cursor.move env m).1 = .error (.store failure) ↔
      (j.step (.move env m)).source.outcomes = j.source.outcomes ++ [.error failure] := by
  rw [source_move]
  rcases StreamingCursor.move_loads h.sound.isOpen env m with
    ⟨hsame, hnever⟩ | ⟨-, -, outcome, hcalls, hfails⟩
  · rw [hsame]
    simp [hnever failure, source]
  · rw [hfails, Watched.outcomes_of_calls hcalls]
    simp [source]

theorem accessors (h : j.Accounted plain passed kept) {α : Type}
    (use : Codec j.fmt → α × Codec j.fmt) :
    (j.cursor.onCurrent use).1 = if passed = [] ∨ j.exhausted = true
      then .error (.outOfBounds j.cursor.position) else .ok (use j.cursor.current.codec).1 := by
  have honRow := h.onRow
  rw [← h.exhausted] at honRow
  split
  next hnone =>
    have hinvalid : j.cursor.current.valid ≠ true := fun hvalid => by
      obtain ⟨hpassed, hgoing⟩ := honRow.mp hvalid
      rcases hnone with hnil | hend
      · exact hpassed hnil
      · exact nomatch hgoing.symm.trans hend
    simp [StreamingCursor.onCurrent, StreamingCursor.currentCodec, h.sound.isOpen, hinvalid]
  next hrow =>
    obtain ⟨hpassed, hgoing⟩ := not_or.mp hrow
    have hvalid := honRow.mpr ⟨hpassed, Bool.not_eq_true _ ▸ hgoing⟩
    simp [StreamingCursor.onCurrent, StreamingCursor.currentCodec, h.sound.isOpen, hvalid]

theorem stands (h : j.Accounted plain passed kept) : j.Stands plain passed kept where
  supplied := h.rows
  atMostOne := h.ahead.length_le
  arrivals := h.arrivals
  position := by
    rw [h.exhausted]
    exact h.position
  ended hend := by
    have hahead := h.ahead
    rw [h.sound.ended (h.exhausted ▸ hend)] at hahead
    exact hahead

theorem orderly (h : j.Accounted plain passed kept) : j.Orderly plain passed kept where
  toStands := h.stands
  answers := h.answers
  progress env m := ⟨(h.move env m).stands, h.source_after env m⟩
  rests call hcall hplain := (h.stay call hcall hplain).imp_left stands
  loads := h.loads
  failures := h.failures
  stays env m hidle hgoing := by
    rw [StreamingCursor.move_of_idle hidle hgoing]
    exact StreamingCursor.hasNext_stays env j.cursor
  accessors := h.accessors

end Accounted

end Journey

/-! ## Sources that do not fail -/

theorem Watched.supplies {env : ε} {rows : List Parts} {source : σ} (h : Supplies env rows source)
    (calls : List SourceCall) : Supplies env rows ({ source, calls } : Watched σ) := by
  induction rows generalizing source calls with
  | nil => exact h
  | cons row rest ih => exact ⟨h.1, ih h.2 _⟩

/-- The source has just these rows still to supply. -/
structure Watched.Has (env : ε) (rest : List Parts) (w : Watched σ) : Prop where
  behind : .ok none ∈ w.outcomes → rest = []
  before : .ok none ∉ w.outcomes → Supplies env rest w

namespace Watched.Has

variable {env : ε} {kept rest : List Parts} {w : Watched σ}

/-- A load comes to the first of the rows, and leaves the others. -/
theorem load (h : Supplies env rest w) (hgoing : .ok none ∉ w.outcomes) :
    (RowSource.load env w).1 = .ok rest.head? ∧ (RowSource.load env w).2.Has env rest.tail := by
  rcases hload : RowSource.load env w with ⟨outcome, after⟩
  have hend := Watched.end_mem_load hload
  cases rest with
  | nil =>
    obtain rfl : outcome = .ok none := by rw [← h, hload]
    exact ⟨rfl, fun _ => rfl, fun hbefore => absurd (hend.mpr (.inr rfl)) hbefore⟩
  | cons row rest =>
    obtain ⟨hfirst, hrest⟩ := h
    rw [hload] at hfirst hrest
    obtain rfl : outcome = .ok (some row) := hfirst
    exact ⟨rfl, fun hmem => (hend.mp hmem).elim (fun h => absurd h hgoing) nofun, fun _ => hrest⟩

/-- The first of the rows to come is ahead, whether it is kept or not. -/
theorem ahead (h : w.Has env rest) (hkept : kept.length ≤ 1) :
    (w.ahead env kept).1 = .ok (kept ++ rest).head? ∧
      (w.ahead env kept).2.Has env (kept ++ rest).tail := by
  cases kept with
  | cons row more =>
    obtain rfl : more = [] := by simpa using hkept
    exact ⟨rfl, h⟩
  | nil =>
    by_cases hend : .ok none ∈ w.outcomes
    · obtain rfl := h.behind hend
      rw [Watched.ahead_of_end env hend]
      exact ⟨rfl, h⟩
    · rw [Watched.ahead_of_going env hend]
      exact load (h.before hend) hend

end Watched.Has

/-- Whether a call moves on, and does not only ask or stay. -/
def StreamCall.proceeds : StreamCall ε → Bool
  | .move _ .next | .move _ .tryNext => true
  | _ => false

namespace Journey

variable {plain : Prop} {env : ε} {j : Journey σ} {passed coming : List Parts}

/-- The journey has passed some rows, and there are others that it will come to as long as the
    environment stays as it is. The first of these may be kept. -/
def Faces (plain : Prop) (env : ε) (j : Journey σ) (passed coming : List Parts) : Prop :=
  ∃ kept rest, coming = kept ++ rest ∧ j.Accounted plain passed kept ∧ j.source.Has env rest

theorem faces_opened (plain : Prop) {source : σ} (fmt : Format) (h : Supplies env coming source) :
    (opened source fmt).Faces plain env [] coming :=
  ⟨[], coming, rfl, accounted_opened plain source fmt,
    fun hmem => absurd hmem List.not_mem_nil, fun _ => Watched.supplies h []⟩

namespace Faces

/-- A move finds the first of the rows to come. -/
theorem answers (h : j.Faces plain env passed coming) (m : Move) :
    (j.cursor.move env m).1 = m.answer (.ok coming.head?) := by
  obtain ⟨kept, rest, rfl, haccounted, hrest⟩ := h
  rw [haccounted.answers, (hrest.ahead haccounted.ahead.length_le).1]

theorem move (h : j.Faces plain env passed coming) (m : Move) :
    (j.step (.move env m)).Faces plain env
      (passed ++ m.passes (.ok coming.head?)) (m.keeps (.ok coming.head?) ++ coming.tail) := by
  obtain ⟨kept, rest, rfl, haccounted, hrest⟩ := h
  obtain ⟨hahead, hafter⟩ := hrest.ahead haccounted.ahead.length_le
  have hmoved := haccounted.move env m
  rw [hahead] at hmoved
  rw [← haccounted.source_after env m] at hafter
  exact ⟨_, _, rfl, hmoved, hafter⟩

theorem stay (h : j.Faces plain env passed coming) (call : StreamCall ε)
    (hcall : ∀ env m, call ≠ .move env m)
    (hplain : plain → ∀ target, call ≠ .withFormat target true) :
    (j.step call).Faces plain env passed coming := by
  obtain ⟨kept, rest, rfl, haccounted, hrest⟩ := h
  obtain ⟨hstays, hsource⟩ := haccounted.stay call hcall hplain
  rw [← hsource] at hrest
  exact ⟨kept, rest, rfl, hstays, hrest⟩

/-- A call that moves on passes the first of the rows to come, and no other call passes any. -/
theorem step (h : j.Faces plain env passed coming) (call : StreamCall ε)
    (henv : ∀ other m, call = .move other m → other = env)
    (hplain : plain → ∀ target, call ≠ .withFormat target true) :
    (j.step call).Faces plain env
      (passed ++ coming.take call.proceeds.toNat) (coming.drop call.proceeds.toNat) := by
  cases call with
  | move other m =>
    obtain rfl := henv other m rfl
    have hmoved := h.move m
    cases coming <;> cases m <;>
      simpa [Move.passes, Move.keeps, Watched.loaded?, StreamCall.proceeds] using hmoved
  | use change => simpa [StreamCall.proceeds] using h.stay (.use change : StreamCall ε) nofun hplain
  | withFormat target reEncode =>
    simpa [StreamCall.proceeds] using h.stay (.withFormat target reEncode) nofun hplain

theorem run (h : j.Faces plain env passed coming) (calls : List (StreamCall ε))
    (henv : ∀ other m, .move other m ∈ calls → other = env)
    (hplain : plain → StreamCall.Plain calls) :
    (j.run calls).Faces plain env (passed ++ coming.take (calls.countP StreamCall.proceeds))
      (coming.drop (calls.countP StreamCall.proceeds)) := by
  induction calls generalizing j passed coming with
  | nil => simpa [Journey.run] using h
  | cons call rest ih =>
    have hstep := h.step call
      (fun other m hcall => henv other m (hcall ▸ List.mem_cons_self))
      (fun hsame target hcall => hplain hsame target (hcall ▸ List.mem_cons_self))
    have hrun := ih hstep (fun other m hmem => henv other m (List.mem_cons_of_mem call hmem))
      (fun hsame target hmem => hplain hsame target (List.mem_cons_of_mem call hmem))
    have hcount : (call :: rest).countP StreamCall.proceeds
        = call.proceeds.toNat + rest.countP StreamCall.proceeds := by
      rw [List.countP_cons, Nat.add_comm]
      cases call.proceeds <;> rfl
    rw [List.append_assoc, List.drop_drop, ← List.take_add, ← hcount] at hrun
    exact hrun

/-- The journey has come to the rows that it has passed. -/
theorem arrivals (h : j.Faces plain env passed coming) :
    Arrived plain passed j.arrivals := by
  obtain ⟨kept, rest, -, haccounted, -⟩ := h
  exact haccounted.arrivals

end Faces

/-- A streaming cursor comes to every row of its source, in order, once, and as it was supplied,
    whatever is done with it and whenever the source fails. It never loads more than one row
    ahead, and never again after the end. If no row has been put into another format to be
    assembled there, the codec of each is the one of the row alone. Over a source that does not
    fail, each call that moves on comes to the next of its rows, and after the last one to the
    end. -/
theorem orderly_run (source : σ) (fmt : Format) (calls : List (StreamCall ε)) :
    (∃ passed kept,
      ((opened source fmt).run calls).Orderly (StreamCall.Plain calls) passed kept) ∧
    ∀ env rows, Supplies env rows source → (∀ other m, .move other m ∈ calls → other = env) →
      Arrived (StreamCall.Plain calls) (rows.take (calls.countP StreamCall.proceeds))
          ((opened source fmt).run calls).arrivals ∧
        ∀ m, (((opened source fmt).run calls).cursor.move env m).1
          = m.answer (.ok rows[calls.countP StreamCall.proceeds]?) := by
  constructor
  · obtain ⟨passed, kept, h⟩ := (accounted_opened _ source fmt).run calls id
    exact ⟨passed, kept, h.orderly⟩
  · intro env rows hsupplies henv
    have h := (faces_opened _ fmt hsupplies).run calls henv id
    refine ⟨h.arrivals, fun m => ?_⟩
    rw [h.answers, List.head?_drop]

/-- Two rows, the first of them edited before the second one is come to in another format. -/
theorem orderly_run_of_two_rows :
    let museum : Parts := { id := some "museum" }
    let tower : Parts := { id := some "tower", version := some "v1" }
    let calls : List (StreamCall Unit) :=
      [.move () .hasNext, .move () .hasNext, .move () .next,
        .use (fun _ codec => codec.setVersion (some "v2")), .withFormat .json false,
        .move () .tryNext, .move () .tryNext]
    let j := (opened (RowQueue.mk [museum, tower]) .geo).run calls
    Arrived True [museum, tower] j.arrivals ∧ (j.cursor.move () .next).1 = .error .exhausted := by
  intro museum tower calls j
  have hplain : StreamCall.Plain calls := by simp [StreamCall.Plain, calls]
  have hcount : calls.countP StreamCall.proceeds = 3 := rfl
  obtain ⟨-, hreads⟩ := orderly_run (RowQueue.mk [museum, tower]) .geo calls
  obtain ⟨harrived, hanswers⟩ :=
    hreads () [museum, tower] (RowQueue.supplies _) (fun _ _ _ => rfl)
  rw [hcount] at harrived hanswers
  refine ⟨?_, hanswers .next⟩
  exact harrived.imp fun _ _ h => ⟨h.holds, fun _ => h.same hplain⟩

end Journey

end FeatureStore
