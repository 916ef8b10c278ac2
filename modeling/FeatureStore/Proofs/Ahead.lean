-- SUMMARY: What a source has still to supply, and the rows that a cursor has still to come to.
import FeatureStore.Proofs.Moves

/-!
# The rows ahead

While its environment stays as it is, a source supplies rows until it comes to its end or
fails. The rows ahead of a cursor are the one that it keeps, if it keeps one, and those that
its source has still to supply. Reading the cursor to its end visits just these, and so does
taking its rows into memory.
-/

namespace FeatureStore

variable {ε σ α : Type} [RowSource ε σ] {fmt : Format}

/-- The rows that a source supplies until its end, or the failure that keeps it from the end. -/
def supply (env : ε) (source : σ) : Except StoreError (List Parts) :=
  match _h : RowSource.load env source with
  | (.ok (some row), rest) => (supply env rest).map (row :: ·)
  | (.ok none, _) => .ok []
  | (.error failure, _) => .error failure
termination_by RowSource.remaining env source
decreasing_by
  have law := RowSource.remaining_load env source row
  rw [_h] at law
  exact law rfl

section Supply

variable {env : ε} {source after : σ}

theorem supply_of_row {row : Parts} (h : RowSource.load env source = (.ok (some row), after)) :
    supply env source = (supply env after).map (row :: ·) := by
  rw [supply]
  split <;> simp_all

theorem supply_of_end (h : RowSource.load env source = (.ok none, after)) :
    supply env source = .ok [] := by
  rw [supply]
  split <;> simp_all

theorem supply_of_failure {failure : StoreError}
    (h : RowSource.load env source = (.error failure, after)) :
    supply env source = .error failure := by
  rw [supply]
  split <;> simp_all

theorem Supplies.supply_eq {rows : List Parts} (h : Supplies env rows source) :
    supply env source = .ok rows := by
  induction rows generalizing source with
  | nil => exact supply_of_end (Prod.ext h rfl)
  | cons row rest ih =>
    rw [supply_of_row (Prod.ext h.1 rfl), ih h.2]
    rfl

end Supply

namespace StreamingCursor

variable {env : ε} {c : StreamingCursor σ fmt}

/-- The codecs of the rows that a cursor has still to come to, or the failure that keeps it
    from the end. -/
def ahead (env : ε) (c : StreamingCursor σ fmt) : Except StoreError (List (Codec fmt)) :=
  match c.outlook with
  | .unread => (supply env c.handle.source).map (List.map .arrived)
  | .kept codec => (supply env c.handle.source).map (fun rows => codec :: rows.map .arrived)
  | .ended => .ok []

theorem ahead_withCurrent (codec : Codec fmt) :
    (c.withCurrent codec).ahead env = c.ahead env := rfl

theorem ahead_advance (h : c.exhausted = false) :
    c.advance.ahead env = (supply env c.handle.source).map (List.map .arrived) := by
  rw [ahead, outlook_advance h]
  rfl

/-- A cursor that is asked for the next row comes to it, if there is one, or to the end, or it
    fails. -/
theorem tryNext_cases (h : c.Sound) (env : ε) :
    (∃ moved, c.tryNext env = (.ok true, moved) ∧ moved.Sound ∧
      c.ahead env = (moved.ahead env).map (moved.current.codec :: ·)) ∨
    ((c.tryNext env).1 = .ok false ∧ c.ahead env = .ok []) ∨
    ∃ failure, (c.tryNext env).1 = .error (.store failure) ∧ c.ahead env = .error failure := by
  rcases hasNext_cases h.isOpen env with ⟨codec, hkept, hnext⟩ | ⟨hended, hnext⟩ | ⟨hunread, hload⟩
  · have hlookahead := (outlook_eq_kept hkept).2
    refine .inl ⟨c.advance, by rw [tryNext, hnext], h.advance hkept, ?_⟩
    rw [ahead_advance (h.exhausted_eq_false (by simp [hkept])), ahead, hkept]
    cases supply env c.handle.source with
    | error failure => rfl
    | ok rows => simp [Except.map, advance, hlookahead]
  · refine .inr (.inl ⟨by rw [tryNext, hnext], ?_⟩)
    rw [ahead, hended]
  have hahead : c.ahead env = (supply env c.handle.source).map (List.map .arrived) := by
    rw [ahead, hunread]
  -- The row that is loaded is the first of the supply, which is all that was ahead.
  rcases hload with ⟨row, source, hload, hnext⟩ | ⟨source, hload, hnext⟩ |
    ⟨failure, source, hload, hnext⟩
  · have hkeeping := h.keeping hunread source row
    have hgoing := h.exhausted_eq_false (by simp [hunread])
    refine .inl ⟨(c.keeping source row).advance, by rw [tryNext, hnext], hkeeping.advance rfl, ?_⟩
    rw [hahead, supply_of_row hload, ahead_advance (c := c.keeping source row) hgoing]
    cases hsupply : supply env source with
    | error failure => simp [keeping, hsupply, Except.map]
    | ok rows => simp [keeping, hsupply, Except.map, advance, Row.ofParts, Codec.arrived]
  · refine .inr (.inl ⟨by rw [tryNext, hnext], ?_⟩)
    rw [hahead, supply_of_end hload]
    rfl
  · refine .inr (.inr ⟨failure, by rw [tryNext, hnext], ?_⟩)
    rw [hahead, supply_of_failure hload]
    rfl

/-- Reading to the end visits the rows ahead, in their order, or it fails as they do. -/
theorem forEach_ahead (h : c.Sound) (env : ε) (visit : Codec fmt → α × Codec fmt) :
    (c.forEach env visit).1
      = ((c.ahead env).map (List.map (fun codec => (visit codec).1))).mapError .store := by
  -- Every case of reading is one of the ends of a move; the visit itself leaves the rows ahead.
  fun_induction c.forEach env visit with
  | case1 c moved htry value codec hvisit values last hrest ih =>
    rcases tryNext_cases h env with ⟨next, hmove, hsound, hahead⟩ | ⟨hend, -⟩ | ⟨failure, hfail, -⟩
    · obtain ⟨-, rfl⟩ := Prod.mk.inj (htry.symm.trans hmove)
      have hvalues : values = _ :=
        (congrArg Prod.fst hrest).symm.trans (ih (hsound.withCurrent codec))
      rw [ahead_withCurrent] at hvalues
      rw [hvalues, hahead]
      cases moved.ahead env with
      | error failure => rfl
      | ok codecs =>
        obtain rfl : (visit moved.current.codec).1 = value := congrArg Prod.fst hvisit
        rfl
    · simp [htry] at hend
    · simp [htry] at hfail
  | case2 c last htry =>
    rcases tryNext_cases h env with ⟨next, hmove, -, -⟩ | ⟨-, hahead⟩ | ⟨failure, hfail, -⟩
    · simp [htry] at hmove
    · rw [hahead]
      rfl
    · simp [htry] at hfail
  | case3 c e last htry =>
    rcases tryNext_cases h env with ⟨next, hmove, -, -⟩ | ⟨hend, -⟩ | ⟨failure, hfail, hahead⟩
    · simp [htry] at hmove
    · simp [htry] at hend
    · obtain rfl : e = .store failure := by simpa [htry] using hfail
      rw [hahead]
      rfl

theorem forEach_of_ahead (h : c.Sound) {codecs : List (Codec fmt)}
    (hahead : c.ahead env = .ok codecs) (visit : Codec fmt → α × Codec fmt) :
    (c.forEach env visit).1 = .ok (codecs.map (fun codec => (visit codec).1)) := by
  rw [forEach_ahead h, hahead]
  rfl

/-- The rows ahead can be taken into memory. -/
theorem materialize_of_ahead (h : c.Sound) {codecs : List (Codec fmt)}
    (hahead : c.ahead env = .ok codecs) (target : Format) :
    ∃ handle, c.materialize env target
      = .ok (.ofTaken (codecs.map (fun codec => codec.retarget target false)) (some handle)) := by
  have htaken := forEach_of_ahead h hahead (Codec.take target)
  unfold materialize
  rcases hread : c.forEach env (Codec.take target) with ⟨result, last⟩
  obtain rfl : result = _ := (congrArg Prod.fst hread).symm.trans htaken
  exact ⟨last.handle, rfl⟩

theorem materialize_of_failure (h : c.Sound) {failure : StoreError}
    (hahead : c.ahead env = .error failure) (target : Format) :
    ∃ handle, c.materialize env target = .error (.store failure, some handle) := by
  have htaken := forEach_ahead h env (Codec.take target)
  rw [hahead] at htaken
  unfold materialize
  rcases hread : c.forEach env (Codec.take target) with ⟨result, last⟩
  obtain rfl : result = _ := (congrArg Prod.fst hread).symm.trans htaken
  exact ⟨last.handle.release, rfl⟩

/-- The codecs of the rows that a cursor has yet to move onto. -/
inductive Awaits (env : ε) (c : StreamingCursor σ fmt) : List (Codec fmt) → Prop
  /-- No row has been looked up. -/
  | unread (hopen : c.handle.released = false) (hloaded : c.lookaheadLoaded = false)
      (hexhausted : c.exhausted = false) {rows : List Parts}
      (hrows : Supplies env rows c.handle.source) : Awaits env c (rows.map .arrived)
  /-- A row has been looked up and is kept. -/
  | kept (hopen : c.handle.released = false) (hloaded : c.lookaheadLoaded = true)
      (hvalid : c.lookahead.valid = true) (hexhausted : c.exhausted = false) {rows : List Parts}
      (hrows : Supplies env rows c.handle.source) :
      Awaits env c (c.lookahead.codec :: rows.map .arrived)
  /-- A lookup has found the end. -/
  | ended (hopen : c.handle.released = false) (hloaded : c.lookaheadLoaded = true)
      (hvalid : c.lookahead.valid = false) : Awaits env c []

theorem awaits_ofSource {env : ε} {source : σ} {rows : List Parts}
    (h : Supplies env rows source) :
    (ofSource source : StreamingCursor σ fmt).Awaits env (rows.map .arrived) :=
  .unread rfl rfl rfl h

theorem Awaits.sound {codecs : List (Codec fmt)} (h : c.Awaits env codecs) : c.Sound := by
  cases h with
  | unread hopen hloaded hexhausted hrows =>
    exact ⟨hopen, fun hend => nomatch hexhausted.symm.trans hend⟩
  | kept hopen hloaded hvalid hexhausted hrows =>
    exact ⟨hopen, fun hend => nomatch hexhausted.symm.trans hend⟩
  | ended hopen hloaded hvalid => exact ⟨hopen, fun _ => by simp [outlook, hloaded, hvalid]⟩

/-- The rows that a cursor awaits are those ahead. -/
theorem Awaits.ahead_eq {codecs : List (Codec fmt)} (h : c.Awaits env codecs) :
    c.ahead env = .ok codecs := by
  cases h with
  | unread hopen hloaded hexhausted hrows =>
    have houtlook : c.outlook = .unread := by simp [outlook, hloaded, hexhausted]
    rw [ahead, houtlook, hrows.supply_eq]
    rfl
  | kept hopen hloaded hvalid hexhausted hrows =>
    have houtlook : c.outlook = .kept c.lookahead.codec := by simp [outlook, hloaded, hvalid]
    rw [ahead, houtlook, hrows.supply_eq]
    rfl
  | ended hopen hloaded hvalid =>
    have houtlook : c.outlook = .ended := by simp [outlook, hloaded, hvalid]
    rw [ahead, houtlook]

/-- Reading to the end visits the rows that are awaited, in their order. -/
theorem Awaits.forEach {codecs : List (Codec fmt)} (h : c.Awaits env codecs)
    (visit : Codec fmt → α × Codec fmt) :
    (c.forEach env visit).1 = .ok (codecs.map (fun codec => (visit codec).1)) :=
  forEach_of_ahead h.sound h.ahead_eq visit

end StreamingCursor

theorem HeapCursor.forEach_ofTaken (codecs : List (Codec fmt)) (origin : Option (Handle σ))
    (visit : Codec fmt → α × Codec fmt) :
    ((ofTaken codecs origin).forEach visit).1
      = .ok (codecs.map (fun codec => (visit codec).1)) := by
  simp [forEach, ofTaken]

end FeatureStore
