-- SUMMARY: The moves of a streaming cursor, what it knows of the row ahead, and sources with a record of their calls.
import FeatureStore.Proofs.Supply

/-!
# Moves

What a streaming cursor does next depends on what it knows of the row ahead: it may not have
asked for it, it may keep it, or it may know that there is none. The first move of a cursor
that has not asked is to load a row, and a load ends in one of three ways. Everything else
about a cursor follows from these five cases.

What is asked of a source is not seen in its rows. A watched source is a source together
with the calls that have been made of it.
-/

namespace FeatureStore

variable {ε σ : Type} [RowSource ε σ] {fmt : Format}

/-! ## Watched sources -/

/-- A call of a source, with what a load has come to. -/
inductive SourceCall
  | load (outcome : Except StoreError (Option Parts))
  | close

/-- A source with the calls that have been made of it, in their order. -/
structure Watched (σ : Type) where
  source : σ
  calls : List SourceCall := []

namespace Watched

def load (env : ε) (w : Watched σ) : Except StoreError (Option Parts) × Watched σ :=
  let (outcome, source) := RowSource.load env w.source
  (outcome, { source, calls := w.calls ++ [.load outcome] })

def close (w : Watched σ) : Watched σ :=
  { source := RowSource.close w.source, calls := w.calls ++ [.close] }

instance : RowSource ε (Watched σ) where
  load := load
  close := close
  remaining env w := RowSource.remaining env w.source
  remaining_load env w parts h := RowSource.remaining_load env w.source parts h

/-- What the loads have come to, in their order. -/
def outcomes (w : Watched σ) : List (Except StoreError (Option Parts)) :=
  w.calls.filterMap fun
    | .load outcome => some outcome
    | .close => none

/-- The row that a load has come to, if it has come to one. -/
def loaded? : Except StoreError (Option Parts) → Option Parts
  | .ok row? => row?
  | .error _ => none

/-- The rows that have been supplied, in their order. -/
def rows (w : Watched σ) : List Parts := w.outcomes.filterMap loaded?

theorem calls_load {env : ε} {w after : Watched σ} {outcome : Except StoreError (Option Parts)}
    (h : RowSource.load env w = (outcome, after)) : after.calls = w.calls ++ [.load outcome] := by
  cases h
  rfl

theorem outcomes_of_calls {w after : Watched σ} {outcome : Except StoreError (Option Parts)}
    (h : after.calls = w.calls ++ [.load outcome]) : after.outcomes = w.outcomes ++ [outcome] := by
  simp [outcomes, h]

theorem outcomes_load {env : ε} {w after : Watched σ} {outcome : Except StoreError (Option Parts)}
    (h : RowSource.load env w = (outcome, after)) : after.outcomes = w.outcomes ++ [outcome] :=
  outcomes_of_calls (calls_load h)

theorem rows_load {env : ε} {w after : Watched σ} {outcome : Except StoreError (Option Parts)}
    (h : RowSource.load env w = (outcome, after)) :
    after.rows = w.rows ++ (loaded? outcome).toList := by
  rw [rows, outcomes_load h, List.filterMap_append]
  cases hrow : loaded? outcome with
  | none => simp [hrow, rows]
  | some row => simp [hrow, rows]

theorem end_mem_load {env : ε} {w after : Watched σ} {outcome : Except StoreError (Option Parts)}
    (h : RowSource.load env w = (outcome, after)) :
    .ok none ∈ after.outcomes ↔ .ok none ∈ w.outcomes ∨ .ok none = outcome := by
  rw [outcomes_load h, List.mem_append, List.mem_singleton]

end Watched

/-! ## The row ahead -/

/-- What a cursor knows of the row ahead. -/
inductive Outlook (fmt : Format)
  /-- Nothing; the source has to be asked. -/
  | unread
  /-- The row has been loaded and is kept. -/
  | kept (codec : Codec fmt)
  /-- There is no other row. -/
  | ended

def Outlook.retarget (target : Format) (reEncode : Bool) : Outlook fmt → Outlook target
  | .unread => .unread
  | .kept codec => .kept (codec.retarget target reEncode)
  | .ended => .ended

namespace StreamingCursor

variable {env : ε} {c : StreamingCursor σ fmt}

def outlook (c : StreamingCursor σ fmt) : Outlook fmt :=
  if c.lookaheadLoaded then if c.lookahead.valid then .kept c.lookahead.codec else .ended
  else if c.exhausted then .ended
  else .unread

/-- The cursor over another state of its source, with a row that it keeps. -/
def keeping (c : StreamingCursor σ fmt) (source : σ) (row : Parts) : StreamingCursor σ fmt :=
  { c with
    handle := { c.handle with source }, lookahead := .ofParts row, lookaheadLoaded := true }

/-- The cursor over another state of its source, which has come to its end. -/
def ending (c : StreamingCursor σ fmt) (source : σ) : StreamingCursor σ fmt :=
  { c with handle := { c.handle with source }, lookahead := {}, lookaheadLoaded := true }

/-- The cursor over another state of its source, which has failed to load a row. -/
def missing (c : StreamingCursor σ fmt) (source : σ) : StreamingCursor σ fmt :=
  { c with handle := { c.handle with source }, lookahead := {} }

theorem outlook_ofSource (source : σ) :
    (ofSource source : StreamingCursor σ fmt).outlook = .unread := rfl

theorem outlook_keeping (source : σ) (row : Parts) :
    (c.keeping source row).outlook = .kept (.arrived row) := rfl

theorem outlook_ending (source : σ) : (c.ending source).outlook = .ended := rfl

/-- After a failure the source has to be asked again. -/
theorem outlook_missing (h : c.outlook = .unread) (source : σ) :
    (c.missing source).outlook = .unread := by
  unfold outlook at h
  split at h
  · split at h <;> cases h
  next hloaded =>
    split at h
    · cases h
    next hexhausted => simp [outlook, missing, hloaded, hexhausted]

/-- A cursor that has moved on knows nothing of the row ahead. -/
theorem outlook_advance (h : c.exhausted = false) : c.advance.outlook = .unread := by
  simp [outlook, advance, h]

theorem outlook_finish (h : c.outlook = .ended) : c.finish.outlook = .ended := by
  unfold finish
  split
  · exact h
  · unfold outlook at h ⊢
    split at h
    next hloaded => simpa [hloaded] using h
    next hloaded => simp [hloaded]

theorem handle_onCurrent {α : Type} (c : StreamingCursor σ fmt) (use : Codec fmt → α × Codec fmt) :
    (c.onCurrent use).2.handle = c.handle := by
  unfold onCurrent
  split <;> rfl

theorem handle_close (c : StreamingCursor σ fmt) : c.close.handle = c.handle.release := by
  unfold close
  split
  next hreleased => exact (if_pos hreleased).symm
  · rfl

theorem handle_finish (c : StreamingCursor σ fmt) : c.finish.handle = c.handle := by
  unfold finish
  split <;> rfl

theorem outlook_eq_kept {codec : Codec fmt} (h : c.outlook = .kept codec) :
    c.lookaheadLoaded = true ∧ c.lookahead = { codec, valid := true } := by
  unfold outlook at h
  split at h
  next hloaded =>
    split at h
    next hvalid =>
      obtain rfl := Outlook.kept.inj h
      refine ⟨hloaded, ?_⟩
      rw [← hvalid]
    · cases h
  · split at h <;> cases h

theorem outlook_withFormat (c : StreamingCursor σ fmt) (target : Format) (reEncode : Bool) :
    (c.withFormat target reEncode).outlook = c.outlook.retarget target reEncode := by
  cases hloaded : c.lookaheadLoaded with
  | true =>
    cases hvalid : c.lookahead.valid with
    | true => simp [outlook, withFormat, retargetRow, hloaded, hvalid, Outlook.retarget]
    | false => simp [outlook, withFormat, retargetRow, hloaded, hvalid, Outlook.retarget]
  | false =>
    cases hexhausted : c.exhausted with
    | true => simp [outlook, withFormat, hloaded, hexhausted, Outlook.retarget]
    | false => simp [outlook, withFormat, hloaded, hexhausted, Outlook.retarget]

/-- What comes of asking an open cursor whether there is a next row. -/
theorem hasNext_cases (hopen : c.handle.released = false) (env : ε) :
    (∃ codec, c.outlook = .kept codec ∧ c.hasNext env = (.ok true, c)) ∨
    (c.outlook = .ended ∧ c.hasNext env = (.ok false, c)) ∨
    (c.outlook = .unread ∧
      ((∃ row source, RowSource.load env c.handle.source = (.ok (some row), source) ∧
          c.hasNext env = (.ok true, c.keeping source row)) ∨
        (∃ source, RowSource.load env c.handle.source = (.ok none, source) ∧
          c.hasNext env = (.ok false, c.ending source)) ∨
        ∃ failure source, RowSource.load env c.handle.source = (.error failure, source) ∧
          c.hasNext env = (.error (.store failure), c.missing source))) := by
  -- The source is asked only if no row was looked up and the end has not been met.
  cases hloaded : c.lookaheadLoaded with
  | true =>
    have hnext := hasNext_of_loaded env hopen hloaded
    cases hvalid : c.lookahead.valid with
    | true =>
      rw [hvalid] at hnext
      exact .inl ⟨c.lookahead.codec, by simp [outlook, hloaded, hvalid], hnext⟩
    | false =>
      rw [hvalid] at hnext
      exact .inr (.inl ⟨by simp [outlook, hloaded, hvalid], hnext⟩)
  | false =>
    cases hexhausted : c.exhausted with
    | true =>
      have hnext := hasNext_of_exhausted env hopen hloaded hexhausted
      exact .inr (.inl ⟨by simp [outlook, hloaded, hexhausted], hnext⟩)
    | false =>
      refine .inr (.inr ⟨by simp [outlook, hloaded, hexhausted], ?_⟩)
      rw [hasNext_of_unread env hopen hloaded hexhausted]
      rcases hload : RowSource.load env c.handle.source with ⟨outcome, source⟩
      cases outcome with
      | error failure => exact .inr (.inr ⟨failure, source, rfl, lookAhead_of_failure hload⟩)
      | ok row? =>
        cases row? with
        | some row => exact .inl ⟨row, source, rfl, lookAhead_of_row hload⟩
        | none => exact .inr (.inl ⟨source, rfl, lookAhead_of_end hload⟩)

/-- The cursor is open, and if it has stepped behind the last row then it knows that there is no
    other row. -/
structure Sound (c : StreamingCursor σ fmt) : Prop where
  isOpen : c.handle.released = false
  ended : c.exhausted = true → c.outlook = .ended

theorem sound_ofSource (source : σ) : (ofSource source : StreamingCursor σ fmt).Sound :=
  ⟨rfl, nofun⟩

namespace Sound

/-- Where there may be another row the cursor has not stepped behind the last one. -/
theorem exhausted_eq_false (h : c.Sound) (hahead : c.outlook ≠ .ended) : c.exhausted = false := by
  rw [← Bool.not_eq_true]
  exact fun hexhausted => hahead (h.ended hexhausted)

theorem withCurrent (h : c.Sound) (codec : Codec fmt) : (c.withCurrent codec).Sound :=
  ⟨h.isOpen, h.ended⟩

theorem withFormat (h : c.Sound) (target : Format) (reEncode : Bool) :
    (c.withFormat target reEncode).Sound := by
  refine ⟨h.isOpen, fun hexhausted => ?_⟩
  rw [outlook_withFormat, h.ended hexhausted]
  rfl

theorem keeping (h : c.Sound) (hunread : c.outlook = .unread) (source : σ) (row : Parts) :
    (c.keeping source row).Sound := by
  have hgoing := h.exhausted_eq_false (hunread ▸ nofun)
  exact ⟨h.isOpen, fun hexhausted => nomatch hgoing.symm.trans hexhausted⟩

theorem ending (h : c.Sound) (source : σ) : (c.ending source).Sound :=
  ⟨h.isOpen, fun _ => rfl⟩

theorem missing (h : c.Sound) (hunread : c.outlook = .unread) (source : σ) :
    (c.missing source).Sound := by
  have hgoing := h.exhausted_eq_false (hunread ▸ nofun)
  exact ⟨h.isOpen, fun hexhausted => nomatch hgoing.symm.trans hexhausted⟩

theorem advance (h : c.Sound) {codec : Codec fmt} (hkept : c.outlook = .kept codec) :
    c.advance.Sound := by
  have hgoing := h.exhausted_eq_false (hkept ▸ nofun)
  exact ⟨h.isOpen, fun hexhausted => nomatch hgoing.symm.trans hexhausted⟩

theorem finish (h : c.Sound) (hended : c.outlook = .ended) : c.finish.Sound := by
  refine ⟨?_, fun _ => outlook_finish hended⟩
  rw [handle_finish]
  exact h.isOpen

end Sound

/-- Asking leaves the cursor where it is. -/
theorem hasNext_stays (env : ε) (c : StreamingCursor σ fmt) :
    (c.hasNext env).2.current = c.current ∧ (c.hasNext env).2.position = c.position := by
  unfold hasNext lookAhead
  split
  · exact ⟨rfl, rfl⟩
  split
  · exact ⟨rfl, rfl⟩
  split
  · exact ⟨rfl, rfl⟩
  · dsimp only
    split <;> exact ⟨rfl, rfl⟩

end StreamingCursor

/-! ## Moves -/

/-- A move to the next row, or the question whether there is one. -/
inductive Move
  | hasNext
  | next
  | tryNext

namespace StreamingCursor

variable {env : ε} {c d : StreamingCursor σ fmt}

/-- Make a move. Yields whether there is or was a next row, or why it cannot be said. -/
def move (env : ε) (c : StreamingCursor σ fmt) :
    Move → Except CursorError Bool × StreamingCursor σ fmt
  | .hasNext => c.hasNext env
  | .next => ((c.next env).1.map (fun _ => true), (c.next env).2)
  | .tryNext => c.tryNext env

/-- A move with a row ahead goes there, unless it only asks. -/
theorem move_of_true (h : c.hasNext env = (.ok true, d)) (m : Move) :
    c.move env m = (.ok true, match m with | .hasNext => d | _ => d.advance) := by
  cases m with
  | hasNext => exact h
  | next =>
    simp only [move, next, h]
    rfl
  | tryNext => simp only [move, tryNext, h]

/-- A move with no row ahead stays, but `next` fails and steps behind the last row. -/
theorem move_of_false (h : c.hasNext env = (.ok false, d)) (m : Move) :
    c.move env m
      = match m with | .next => (.error .exhausted, d.finish) | _ => (.ok false, d) := by
  cases m with
  | hasNext => exact h
  | next =>
    simp only [move, next, h]
    rfl
  | tryNext => simp only [move, tryNext, h]

/-- A move that cannot tell what is ahead fails. -/
theorem move_of_error {e : CursorError} (h : c.hasNext env = (.error e, d)) (m : Move) :
    c.move env m = (.error e, d) := by
  cases m with
  | hasNext => exact h
  | next =>
    simp only [move, next, h]
    rfl
  | tryNext => simp only [move, tryNext, h]

theorem move_of_released (h : c.handle.released = true) (env : ε) (m : Move) :
    c.move env m = (.error .closed, c) :=
  move_of_error (hasNext_of_released env h) m

/-- Only asking for the next row touches the source. -/
theorem handle_move (env : ε) (c : StreamingCursor σ fmt) (m : Move) :
    (c.move env m).2.handle = (c.hasNext env).2.handle := by
  rcases hnext : c.hasNext env with ⟨_ | _ | _, d⟩
  · rw [move_of_error hnext m]
  · rw [move_of_false hnext m]
    cases m with
    | next => exact handle_finish d
    | hasNext => rfl
    | tryNext => rfl
  · rw [move_of_true hnext m]
    cases m <;> rfl

/-- A move that does not get anywhere does nothing but ask for the next row. -/
theorem move_of_idle {m : Move} (h : m = .hasNext ∨ (c.move env m).1 ≠ .ok true)
    (hend : (c.move env m).1 ≠ .error .exhausted) : (c.move env m).2 = (c.hasNext env).2 := by
  rcases hnext : c.hasNext env with ⟨_ | _ | _, d⟩
  · rw [move_of_error hnext m]
  · rw [move_of_false hnext m] at hend ⊢
    cases m with
    | next => exact absurd rfl hend
    | hasNext => rfl
    | tryNext => rfl
  · rw [move_of_true hnext m] at h ⊢
    obtain rfl | hstuck := h
    · rfl
    · exact absurd rfl hstuck

/-- What a load preserves, and moving on and stepping behind the last row, every move does. -/
theorem preserved_by_move {P : StreamingCursor σ fmt → Prop} (hopen : c.handle.released = false)
    (h : P c) (keeping : ∀ source row, c.outlook = .unread → P (c.keeping source row))
    (ending : ∀ source, c.outlook = .unread → P (c.ending source))
    (missing : ∀ source, c.outlook = .unread → P (c.missing source))
    (advance : ∀ d codec, P d → d.outlook = .kept codec → P d.advance)
    (finish : ∀ d, P d → d.outlook = .ended → P d.finish) (env : ε) (m : Move) :
    P (c.move env m).2 := by
  have htrue {d : StreamingCursor σ fmt} {codec : Codec fmt} (hnext : c.hasNext env = (.ok true, d))
      (hd : P d) (hkept : d.outlook = .kept codec) : P (c.move env m).2 := by
    rw [move_of_true hnext]
    cases m with
    | hasNext => exact hd
    | next => exact advance d codec hd hkept
    | tryNext => exact advance d codec hd hkept
  have hfalse {d : StreamingCursor σ fmt} (hnext : c.hasNext env = (.ok false, d))
      (hd : P d) (hended : d.outlook = .ended) : P (c.move env m).2 := by
    rw [move_of_false hnext]
    cases m with
    | hasNext => exact hd
    | next => exact finish d hd hended
    | tryNext => exact hd
  -- A move does no more than what its question for the next row has led to.
  rcases hasNext_cases hopen env with ⟨codec, hkept, hnext⟩ | ⟨hended, hnext⟩ | ⟨hunread, hload⟩
  · exact htrue hnext h hkept
  · exact hfalse hnext h hended
  rcases hload with ⟨row, source, -, hnext⟩ | ⟨source, -, hnext⟩ | ⟨failure, source, -, hnext⟩
  · exact htrue hnext (keeping source row hunread) rfl
  · exact hfalse hnext (ending source hunread) rfl
  · rw [move_of_error hnext]
    exact missing source hunread

theorem move_failure {m : Move} {failure : StoreError} :
    (c.move env m).1 = .error (.store failure) ↔ (c.hasNext env).1 = .error (.store failure) := by
  rcases hnext : c.hasNext env with ⟨_ | _ | _, d⟩
  · rw [move_of_error hnext m]
  · rw [move_of_false hnext m]
    cases m <;> simp
  · rw [move_of_true hnext m]

/-- A move makes a load only if nothing is known of the row ahead, and only one. It fails
    for the reason for which the load has failed. -/
theorem move_loads {c : StreamingCursor (Watched σ) fmt} (hopen : c.handle.released = false)
    (env : ε) (m : Move) :
    ((c.move env m).2.handle = c.handle ∧
      ∀ failure, (c.move env m).1 ≠ .error (.store failure)) ∨
    (c.outlook = .unread ∧ (c.move env m).2.handle.released = false ∧
      ∃ outcome,
        (c.move env m).2.handle.source.calls = c.handle.source.calls ++ [.load outcome] ∧
        ∀ failure, (c.move env m).1 = .error (.store failure) ↔ outcome = .error failure) := by
  simp only [handle_move, Ne, move_failure]
  rcases hasNext_cases hopen env with ⟨codec, -, hnext⟩ | ⟨-, hnext⟩ | ⟨hunread, hload⟩
  · exact .inl (by simp [hnext])
  · exact .inl (by simp [hnext])
  refine .inr ⟨hunread, ?_⟩
  rcases hload with ⟨row, source, hload, hnext⟩ | ⟨source, hload, hnext⟩ |
    ⟨failure, source, hload, hnext⟩
  all_goals
    rw [hnext]
    exact ⟨hopen, _, Watched.calls_load hload, by simp⟩

end StreamingCursor

end FeatureStore
