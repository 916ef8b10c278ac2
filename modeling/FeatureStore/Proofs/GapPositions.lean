-- SUMMARY: A heap cursor is a list with a gap position: where it can be, where its moves lead, and what a removal leaves.
import FeatureStore.Proofs.Releasing

/-!
# Gap positions

The position of a heap cursor is before the first row, on a row, or after the last, and it
stays so whatever is done with the cursor. The moves lead to the position that is asked for
or to the nearest that there is. A removal takes one row out of the list and nothing else: a
cursor on another row stays on that row, and one on the removed row steps back to the row
before it, so the rows to come are the same but for the removed one.

A position is an integer of any size here. Only the relative move adds to a position, and it
does so in sixty-four bits. The sum is exact wherever it matters as long as the rows can be
counted in them, which is more than there is memory for.
-/

namespace FeatureStore

variable {ε σ α : Type} [RowSource ε σ] {fmt : Format}

/-! ## A heap cursor in use -/

/-- A use of a heap cursor: a step to the next row, a use of the codec of the current row, or
    a call that only a heap cursor has. -/
inductive HeapUse (fmt : Format)
  | next
  | tryNext
  | row (change : Codec fmt → Codec fmt)
  | call (call : HeapCall)

namespace HeapCursor

variable {c start : HeapCursor σ fmt}

def afterUse (c : HeapCursor σ fmt) : HeapUse fmt → HeapCursor σ fmt
  | .next => c.next.2
  | .tryNext => c.tryNext.2
  | .row change => (c.onCurrent (fun codec => ((), change codec))).2
  | .call call => c.after call

def afterUses (c : HeapCursor σ fmt) (uses : List (HeapUse fmt)) : HeapCursor σ fmt :=
  uses.foldl afterUse c

/-- A cursor made of rows or of features, or of the rows of another cursor. -/
inductive Fresh : HeapCursor σ fmt → Prop
  | ofCodecs (codecs : List (Codec fmt)) : Fresh (.ofCodecs codecs)
  | ofFeatures (features : List fmt.Assembled) : Fresh (.ofFeatures features)
  | taken {source : Format} (env : ε) (rows : Cursor σ source) {taken : HeapCursor σ fmt}
      (h : rows.materialize env fmt = .ok taken) : Fresh taken

/-! ## Positions -/

def HasRow (c : HeapCursor σ fmt) (position : Int) : Prop := 0 ≤ position ∧ position < c.length

instance (c : HeapCursor σ fmt) (position : Int) : Decidable (c.HasRow position) :=
  inferInstanceAs (Decidable (_ ∧ _))

/-- The position that is nearest to another one. -/
def nearest (c : HeapCursor σ fmt) (position : Int) : Int := max (-1) (min position c.length)

/-- The codec at a position, if there is a row. -/
def rowAt? (c : HeapCursor σ fmt) (position : Int) : Option (Codec fmt) :=
  (c.row position).toOption.map Prod.snd

def current? (c : HeapCursor σ fmt) : Option (Codec fmt) := c.currentCodec.toOption

/-- An open cursor, on a row or before the first or after the last. -/
structure Placed (c : HeapCursor σ fmt) : Prop where
  isOpen : c.closed = false
  lower : -1 ≤ c.position
  upper : c.position ≤ c.length

theorem row_of_hasRow (hopen : c.closed = false) {position : Int} (h : c.HasRow position) :
    ∃ codec, c.codecs[position.toNat]? = some codec ∧
      c.row position = .ok (position.toNat, codec) := by
  have hlt : position.toNat < c.codecs.length := by
    have := h.1
    have := h.2
    simp only [length] at this
    omega
  refine ⟨c.codecs[position.toNat], List.getElem?_eq_getElem hlt, ?_⟩
  simp only [row, hopen, Bool.false_eq_true, if_false, Int.not_lt.mpr h.1,
    List.getElem?_eq_getElem hlt]

theorem row_of_not_hasRow (hopen : c.closed = false) {position : Int} (h : ¬ c.HasRow position) :
    c.row position = .error (.outOfBounds position) := by
  simp only [row, hopen, Bool.false_eq_true, if_false]
  split
  · rfl
  next hlower =>
    have hlength : c.codecs.length ≤ position.toNat := by
      simp only [HasRow, length] at h
      omega
    rw [List.getElem?_eq_none hlength]

/-- The codec at a position is that of the list. -/
theorem rowAt?_of_open (hopen : c.closed = false) {position : Int} (h : 0 ≤ position) :
    c.rowAt? position = c.codecs[position.toNat]? := by
  by_cases hrow : c.HasRow position
  · obtain ⟨codec, hcodec, hok⟩ := row_of_hasRow hopen hrow
    rw [rowAt?, hok, hcodec]
    rfl
  · have hlength : c.codecs.length ≤ position.toNat := by
      simp only [HasRow, length] at hrow
      omega
    rw [rowAt?, row_of_not_hasRow hopen hrow, List.getElem?_eq_none hlength]
    rfl

theorem rowAt?_of_not_hasRow (hopen : c.closed = false) {position : Int}
    (h : ¬ c.HasRow position) : c.rowAt? position = none := by
  rw [rowAt?, row_of_not_hasRow hopen h]
  rfl

theorem current?_eq (c : HeapCursor σ fmt) : c.current? = c.rowAt? c.position := by
  rw [current?, rowAt?, currentCodec]
  cases c.row c.position <;> rfl

/-! ## Moves -/

/-- A move leads to the nearest position, and tells whether that is one of a row. -/
theorem absolute_eq (hopen : c.closed = false) (position : Int) :
    c.absolute position
      = (.ok (decide (c.HasRow (c.nearest position))),
          { c with position := c.nearest position }) := by
  have hlength : 0 ≤ (c.length : Int) := Int.natCast_nonneg _
  simp only [absolute, hopen, Bool.false_eq_true, if_false]
  split
  next hafter =>
    have hnearest : c.nearest position = c.length := by unfold nearest; omega
    have hnone : ¬ c.HasRow c.length := fun h => absurd h.2 (Int.lt_irrefl _)
    rw [hnearest, decide_eq_false hnone]
  split
  next hbefore =>
    have hnearest : c.nearest position = -1 := by unfold nearest; omega
    have hnone : ¬ c.HasRow (-1) := fun h => absurd h.1 (by decide)
    rw [hnearest, decide_eq_false hnone]
  next hafter hbefore =>
    have hnearest : c.nearest position = position := by unfold nearest; omega
    have hrow : c.HasRow position := ⟨Int.not_lt.mp hbefore, Int.not_le.mp hafter⟩
    rw [hnearest, decide_eq_true hrow]

/-- The sum that a relative move makes is exact, or beyond the same end as the exact one. -/
theorem nearest_shift (h : c.Placed) (hcount : c.length ≤ Int64.maxValue.toInt)
    (offset : Int64) :
    c.nearest (shift c.position offset.toInt) = c.nearest (c.position + offset.toInt) := by
  have hmax : Int64.maxValue.toInt = 9223372036854775807 := rfl
  have hmin : Int64.minValue.toInt = -9223372036854775808 := rfl
  have hlower := h.lower
  have hupper := h.upper
  unfold nearest shift
  omega

theorem relative_eq (h : c.Placed) (hcount : c.length ≤ Int64.maxValue.toInt) (offset : Int64) :
    c.relative offset.toInt = c.absolute (c.position + offset.toInt) := by
  rw [relative, absolute_eq h.isOpen, absolute_eq h.isOpen, nearest_shift h hcount]

theorem next_of_hasRow (hopen : c.closed = false) (h : c.position + 1 < c.length) :
    c.next = (.ok (), { c with position := c.position + 1 }) := by
  simp only [next, hasNext, hopen, h, Bool.false_eq_true, if_false, decide_true]

theorem next_of_end (hopen : c.closed = false) (h : c.length ≤ c.position + 1) :
    c.next = (.error .exhausted, { c with position := c.length }) := by
  simp only [next, hasNext, hopen, Int.not_lt.mpr h, Bool.false_eq_true, if_false, decide_false]

theorem tryNext_of_hasRow (hopen : c.closed = false) (h : c.position + 1 < c.length) :
    c.tryNext = (.ok true, { c with position := c.position + 1 }) := by
  simp only [tryNext, hasNext, hopen, h, Bool.false_eq_true, if_false, decide_true]

theorem tryNext_of_end (hopen : c.closed = false) (h : c.length ≤ c.position + 1) :
    c.tryNext = (.ok false, c) := by
  simp only [tryNext, hasNext, hopen, Int.not_lt.mpr h, Bool.false_eq_true, if_false, decide_false]

/-! ## Rows to come -/

theorem next_ok {moved : HeapCursor σ fmt} (h : c.next = (.ok (), moved)) :
    c.position + 1 < c.length ∧ moved = { c with position := c.position + 1 } := by
  have hopen : c.closed = false := by
    rw [← Bool.not_eq_true]
    intro hclosed
    simp [next, hasNext, hclosed] at h
  by_cases hnext : c.position + 1 < c.length
  · rw [next_of_hasRow hopen hnext] at h
    exact ⟨hnext, (Prod.mk.inj h).2.symm⟩
  · rw [next_of_end hopen (Int.not_lt.mp hnext)] at h
    cases (Prod.mk.inj h).1

/-- The rows that a traversal comes to: those on which the cursor is after each call of `next`,
    until there is none. -/
def visits (c : HeapCursor σ fmt) : List (Codec fmt) :=
  match _h : c.next with
  | (.ok (), moved) => moved.current?.toList ++ moved.visits
  | (.error _, _) => []
termination_by (c.length - c.position).toNat
decreasing_by
  obtain ⟨hlt, rfl⟩ := next_ok _h
  simp only [length] at hlt ⊢
  omega

/-- They are the rows of the list that come after the position. -/
theorem visits_eq (h : c.Placed) : c.visits = c.codecs.drop (c.position + 1).toNat := by
  have hlower := h.lower
  fun_induction visits c with
  | case1 c moved hmove ih =>
    obtain ⟨hlt, rfl⟩ := next_ok hmove
    have hmoved : Placed { c with position := c.position + 1 } :=
      ⟨h.isOpen, Int.le_trans hlower (Int.le_add_of_nonneg_right (by decide)), Int.le_of_lt hlt⟩
    rw [ih hmoved hmoved.lower, current?_eq,
      rowAt?_of_open hmoved.isOpen (by change 0 ≤ c.position + 1; omega)]
    have hindex : (c.position + 1).toNat < c.codecs.length := by
      simp only [length] at hlt
      omega
    have hsucc : (c.position + 1 + 1).toNat = (c.position + 1).toNat + 1 := by omega
    simp only [hsucc, List.getElem?_eq_getElem hindex, Option.toList_some]
    exact (List.drop_eq_getElem_cons hindex).symm
  | case2 c e last hfail =>
    by_cases hnext : c.position + 1 < c.length
    · rw [next_of_hasRow h.isOpen hnext] at hfail
      cases (Prod.mk.inj hfail).1
    · refine (List.drop_eq_nil_of_le ?_).symm
      simp only [length] at hnext
      omega

/-! ## Removals -/

/-- Where a position is found after the row at another one has been removed. -/
def closeUp (removed position : Int) : Int :=
  if removed < position then position - 1 else position

/-- The cursor `d` is the cursor `c` without the row at a position. -/
structure Without (c : HeapCursor σ fmt) (removed : Int) (d : HeapCursor σ fmt) : Prop where
  placed : d.Placed
  fewer : d.length + 1 = c.length
  rows : ∀ position, position ≠ removed → d.rowAt? (closeUp removed position) = c.rowAt? position
  stays : removed ≠ c.position → d.position = closeUp removed c.position
  current : removed ≠ c.position → d.current? = c.current?
  beforeFirst : c.position = -1 → d.position = -1
  afterLast : c.position = c.length → d.position = d.length
  stepsBack : removed = c.position →
    d.position = c.position - 1 ∧ d.current? = c.rowAt? (c.position - 1)
  visits : d.visits
    = if removed ≤ c.position then c.visits
      else c.visits.eraseIdx (removed - c.position - 1).toNat

/-- The cursor without the row at a position, and one row back if it was on that row or a later
    one. -/
def withoutRow (c : HeapCursor σ fmt) (removed : Int) : HeapCursor σ fmt :=
  { c with
    codecs := c.codecs.eraseIdx removed.toNat
    position := if removed ≤ c.position then c.position - 1 else c.position }

theorem removeFeatureAt_of_hasRow (hopen : c.closed = false) {removed : Int}
    (h : c.HasRow removed) :
    ∃ codec, c.rowAt? removed = some codec ∧
      c.removeFeatureAt removed = (.ok codec.takeFeature.1, c.withoutRow removed) := by
  obtain ⟨codec, -, hrow⟩ := row_of_hasRow hopen h
  refine ⟨codec, ?_, ?_⟩
  · rw [rowAt?, hrow]
    rfl
  · simp only [removeFeatureAt, hrow]
    rfl

theorem removeFeatureAt_of_not_hasRow (hopen : c.closed = false) {removed : Int}
    (h : ¬ c.HasRow removed) : c.removeFeatureAt removed = (.error (.outOfBounds removed), c) := by
  simp only [removeFeatureAt, row_of_not_hasRow hopen h]

variable {removed : Int}

theorem length_withoutRow (h : c.HasRow removed) :
    (c.withoutRow removed).length + 1 = c.length := by
  obtain ⟨hlower, hupper⟩ := h
  have hindex : removed.toNat < c.codecs.length := by
    simp only [length] at hupper
    omega
  have herase := List.length_eraseIdx_of_lt hindex
  simp only [length, withoutRow] at hupper ⊢
  omega

theorem placed_withoutRow (h : c.Placed) (hrow : c.HasRow removed) :
    (c.withoutRow removed).Placed := by
  have hfewer := length_withoutRow hrow
  have hlower := h.lower
  have hupper := h.upper
  obtain ⟨hfirst, hlast⟩ := hrow
  refine ⟨h.isOpen, ?_, ?_⟩
  · simp only [withoutRow]
    split <;> omega
  · change (if removed ≤ c.position then c.position - 1 else c.position)
      ≤ ((c.withoutRow removed).length : Int)
    split <;> omega

/-- Every other row is found where the list has closed up. -/
theorem rowAt?_withoutRow (h : c.Placed) (hrow : c.HasRow removed) {position : Int}
    (hother : position ≠ removed) :
    (c.withoutRow removed).rowAt? (closeUp removed position) = c.rowAt? position := by
  have hfewer := length_withoutRow hrow
  have hopen : (c.withoutRow removed).closed = false := h.isOpen
  obtain ⟨hfirst, hlast⟩ := hrow
  by_cases hposition : 0 ≤ position
  · have hclosed : 0 ≤ closeUp removed position := by
      unfold closeUp
      split <;> omega
    rw [rowAt?_of_open hopen hclosed, rowAt?_of_open h.isOpen hposition]
    simp only [withoutRow, closeUp]
    split
    next hlater =>
      rw [List.getElem?_eraseIdx_of_ge (by omega)]
      congr 1
      omega
    next hearlier => exact List.getElem?_eraseIdx_of_lt (by omega)
  · have hsame : closeUp removed position = position := if_neg (by omega)
    rw [hsame, rowAt?_of_not_hasRow hopen (fun hin => hposition hin.1),
      rowAt?_of_not_hasRow h.isOpen (fun hin => hposition hin.1)]

/-- The rows to come are the same, without the removed one if that was to come. -/
theorem visits_withoutRow (h : c.Placed) (hrow : c.HasRow removed) :
    (c.withoutRow removed).visits
      = if removed ≤ c.position then c.visits
        else c.visits.eraseIdx (removed - c.position - 1).toNat := by
  have hlower := h.lower
  obtain ⟨hfirst, hlast⟩ := hrow
  rw [visits_eq (placed_withoutRow h ⟨hfirst, hlast⟩), visits_eq h]
  simp only [withoutRow]
  split
  next hpassed =>
    apply List.ext_getElem?
    intro i
    rw [List.getElem?_drop, List.getElem?_drop, List.getElem?_eraseIdx_of_ge (by omega)]
    congr 1
    omega
  next hahead =>
    apply List.ext_getElem?
    intro i
    rw [List.getElem?_drop, List.getElem?_eraseIdx, List.getElem?_eraseIdx]
    split
    next hbefore => rw [if_pos (by omega), List.getElem?_drop]
    next hafter =>
      rw [if_neg (by omega), List.getElem?_drop]
      congr 1

theorem without_withoutRow (h : c.Placed) (hrow : c.HasRow removed) :
    c.Without removed (c.withoutRow removed) := by
  have hfewer := length_withoutRow hrow
  have hplaced := placed_withoutRow h hrow
  have hrows (position : Int) (hother : position ≠ removed) :=
    rowAt?_withoutRow h hrow hother
  have hposition : (c.withoutRow removed).position
      = if removed ≤ c.position then c.position - 1 else c.position := rfl
  -- Only a cursor on the row that is removed steps back; any other one stays on its row.
  have hstays (hother : removed ≠ c.position) :
      (c.withoutRow removed).position = closeUp removed c.position := by
    rw [hposition, closeUp]
    split <;> split <;> omega
  have hback (hcurrent : removed = c.position) :
      (c.withoutRow removed).position = c.position - 1 := by
    rw [hposition, if_pos (Int.le_of_eq hcurrent)]
  obtain ⟨hfirst, hlast⟩ := hrow
  exact {
    placed := hplaced
    fewer := hfewer
    rows := hrows
    stays := hstays
    current := by
      intro hother
      rw [current?_eq, current?_eq, hstays hother]
      exact hrows c.position (Ne.symm hother)
    beforeFirst := by
      intro hbefore
      rw [hposition, if_neg (by omega), hbefore]
    afterLast := by
      intro hafter
      rw [hposition, if_pos (by omega)]
      omega
    stepsBack := by
      intro hcurrent
      refine ⟨hback hcurrent, ?_⟩
      have hkept : closeUp removed (c.position - 1) = c.position - 1 := if_neg (by omega)
      rw [current?_eq, hback hcurrent, ← hrows (c.position - 1) (by omega), hkept]
    visits := visits_withoutRow h ⟨hfirst, hlast⟩ }

/-! ## Whatever is done with the cursor -/

/-- The search for ranks reads rows, and leaves as many as there were. -/
theorem length_ranked (order : Keyed Nat) (codecs : List (Codec fmt)) :
    (ranked order codecs).2.length = codecs.length := by
  fun_induction ranked order codecs with
  | case1 => rfl
  | case2 => rfl
  | case3 codec rest id read hread rank hrank ranks others hothers ih =>
    rw [hothers] at ih
    exact congrArg Nat.succ ih

namespace Placed

/-- There always is a place before the first row. -/
theorem beforeFirst (hopen : c.closed = false) (h : c.position = -1) : c.Placed := by
  refine ⟨hopen, Int.le_of_eq h.symm, ?_⟩
  rw [h]
  exact Int.le_trans (by decide) (Int.natCast_nonneg c.length)

theorem fresh (h : c.Fresh) : c.Placed := by
  cases h with
  | ofCodecs codecs => exact beforeFirst rfl rfl
  | ofFeatures features => exact beforeFirst rfl rfl
  | taken env rows h =>
    cases rows with
    | stream rows =>
      simp only [Cursor.materialize, StreamingCursor.materialize] at h
      split at h <;> cases h
      exact beforeFirst rfl rfl
    | heap rows =>
      simp only [Cursor.materialize, HeapCursor.materialize] at h
      split at h <;> cases h
      exact beforeFirst rfl rfl

theorem absolute (h : c.Placed) (position : Int) : (c.absolute position).2.Placed := by
  rw [absolute_eq h.isOpen]
  have hlength : 0 ≤ (c.length : Int) := Int.natCast_nonneg _
  refine ⟨h.isOpen, Int.le_max_left _ _, ?_⟩
  change c.nearest position ≤ c.length
  unfold nearest
  omega

theorem next (h : c.Placed) : c.next.2.Placed := by
  have hlower := h.lower
  by_cases hnext : c.position + 1 < c.length
  · rw [next_of_hasRow h.isOpen hnext]
    exact ⟨h.isOpen, Int.le_add_one hlower, Int.le_of_lt hnext⟩
  · rw [next_of_end h.isOpen (Int.not_lt.mp hnext)]
    exact ⟨h.isOpen, Int.le_trans (by decide) (Int.natCast_nonneg _), Int.le_refl _⟩

theorem tryNext (h : c.Placed) : c.tryNext.2.Placed := by
  have hlower := h.lower
  by_cases hnext : c.position + 1 < c.length
  · rw [tryNext_of_hasRow h.isOpen hnext]
    exact ⟨h.isOpen, Int.le_add_one hlower, Int.le_of_lt hnext⟩
  · rw [tryNext_of_end h.isOpen (Int.not_lt.mp hnext)]
    exact h

/-- Another list of as many rows makes no difference. -/
theorem withCodecs (h : c.Placed) {codecs : List (Codec fmt)} {order : Option (Keyed Nat)}
    (hlength : codecs.length = c.length) :
    Placed { c with codecs, inputOrder := order } :=
  ⟨h.isOpen, h.lower, le_of_le_of_eq h.upper (congrArg Nat.cast hlength.symm)⟩

theorem onCurrent (h : c.Placed) (use : Codec fmt → α × Codec fmt) :
    (c.onCurrent use).2.Placed := by
  unfold HeapCursor.onCurrent
  split
  · exact h.withCodecs List.length_set
  · exact h

theorem addFeature (h : c.Placed) (f : fmt.Assembled) : (c.addFeature f).2.Placed := by
  rw [HeapCursor.addFeature, if_neg (Bool.eq_false_iff.mp h.isOpen)]
  refine ⟨h.isOpen, h.lower, Int.le_trans h.upper ?_⟩
  simp only [length, List.length_append]
  omega

theorem setFeatureAt (h : c.Placed) (position : Int) (f : fmt.Assembled) :
    (c.setFeatureAt position f).2.Placed := by
  unfold HeapCursor.setFeatureAt
  split
  · exact h.withCodecs List.length_set
  · exact h

theorem removeFeatureAt (h : c.Placed) (position : Int) :
    (c.removeFeatureAt position).2.Placed := by
  by_cases hrow : c.HasRow position
  · obtain ⟨codec, -, hremove⟩ := removeFeatureAt_of_hasRow h.isOpen hrow
    rw [hremove]
    exact placed_withoutRow h hrow
  · rw [removeFeatureAt_of_not_hasRow h.isOpen hrow]
    exact h

theorem restoreInputOrder (h : c.Placed) : c.restoreInputOrder.2.Placed := by
  unfold HeapCursor.restoreInputOrder
  split
  · exact h
  next order horder =>
    have hlength := length_ranked order c.codecs
    split
    next codecs hranked =>
      rw [hranked] at hlength
      exact h.withCodecs hlength
    next ranks codecs hranked => exact beforeFirst h.isOpen rfl

theorem afterUse (h : c.Placed) (use : HeapUse fmt) : (c.afterUse use).Placed := by
  cases use with
  | next => exact h.next
  | tryNext => exact h.tryNext
  | row change => exact h.onCurrent _
  | call call =>
    cases call with
    | absolute position => exact h.absolute position
    | relative offset => exact h.absolute _
    | previous => exact h.absolute _
    | first => exact h.absolute _
    | last => exact h.absolute _
    | beforeFirst => exact h.absolute _
    | afterLast => exact h.absolute _
    | addFeature f => exact h.addFeature (f fmt)
    | setFeatureAt position f => exact h.setFeatureAt position (f fmt)
    | setFeature f => exact h.setFeatureAt c.position (f fmt)
    | removeFeatureAt position => exact h.removeFeatureAt position
    | removeFeature => exact h.removeFeatureAt c.position
    | restoreInputOrder => exact h.restoreInputOrder
    | withOrder order => exact ⟨h.isOpen, h.lower, h.upper⟩

theorem afterUses (h : c.Placed) (uses : List (HeapUse fmt)) : (c.afterUses uses).Placed := by
  induction uses generalizing c with
  | nil => exact h
  | cons use rest ih => exact ih (h.afterUse use)

end Placed

/-- A list with a gap position: where it is, when it shows a row, where its moves lead, and what
    a removal leaves. -/
structure Gapped (c : HeapCursor σ fmt) : Prop where
  placed : c.Placed
  shows : ∀ {α : Type} (use : Codec fmt → α × Codec fmt),
    (∃ value, (c.onCurrent use).1 = .ok value) ↔ c.HasRow c.position
  absolute : ∀ position : Int,
    c.absolute position
      = (.ok (decide (c.HasRow (c.nearest position))), { c with position := c.nearest position })
  relative : c.length ≤ Int64.maxValue.toInt → ∀ offset : Int64,
    c.relative offset.toInt = c.absolute (c.position + offset.toInt)
  remove : ∀ removed : Int, c.HasRow removed →
    (∃ codec, c.rowAt? removed = some codec ∧
      (c.removeFeatureAt removed).1 = .ok codec.takeFeature.1) ∧
      c.Without removed (c.removeFeatureAt removed).2
  refuse : ∀ removed : Int, ¬ c.HasRow removed →
    c.removeFeatureAt removed = (.error (.outOfBounds removed), c)

theorem Placed.gapped (h : c.Placed) : c.Gapped where
  placed := h
  shows := by
    intro α use
    unfold HeapCursor.onCurrent
    by_cases hrow : c.HasRow c.position
    · obtain ⟨codec, -, hok⟩ := row_of_hasRow h.isOpen hrow
      simp [hok, hrow]
    · simp [row_of_not_hasRow h.isOpen hrow, hrow]
  absolute := absolute_eq h.isOpen
  relative := relative_eq h
  remove := by
    intro removed hrow
    obtain ⟨codec, hcodec, hremove⟩ := removeFeatureAt_of_hasRow h.isOpen hrow
    rw [hremove]
    exact ⟨⟨codec, hcodec, rfl⟩, without_withoutRow h hrow⟩
  refuse := fun _ hrow => removeFeatureAt_of_not_hasRow h.isOpen hrow

/-- A heap cursor is a list with a gap position, whatever it is made of and however it has been
    used. -/
theorem gapped_afterUses (h : start.Fresh) (uses : List (HeapUse fmt)) :
    (start.afterUses uses).Gapped :=
  ((Placed.fresh h).afterUses uses).gapped

/-- Removing the only row from a cursor that has come behind it leaves the cursor behind the last
    row of an empty list. -/
theorem gapped_after_removing_the_only_row :
    let f : Feature := { id := "a" }
    let start : HeapCursor RowQueue .geo := .ofFeatures [f]
    let c := start.afterUses [.call .afterLast, .call (.removeFeatureAt 0)]
    start.Fresh ∧ c.Gapped ∧ c.position = c.length := by
  intro f start c
  have hfresh : start.Fresh := @Fresh.ofFeatures Unit RowQueue _ .geo [f]
  exact ⟨hfresh, gapped_afterUses hfresh _, rfl⟩

end HeapCursor

end FeatureStore
