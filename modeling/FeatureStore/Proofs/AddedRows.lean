-- SUMMARY: A feature added to a heap cursor is the last row to come, unless the cursor stands after the last row.
import FeatureStore.Proofs.GapPositions

/-!
# Added rows

A feature is added at the end of the rows, and the cursor keeps its position. Before the first
row or on a row the cursor shows what it showed, and a traversal comes to the rows that it would
have come to and then to the added one.

After the last row it is otherwise. That place is the number of rows, which is then the position
of the added row: the cursor is on that row at once, and a traversal goes past it. A traversal
that is ended by `next` leaves the cursor there, and one that is ended by `tryNext` does not.
-/

namespace FeatureStore

variable {ε σ : Type} [RowSource ε σ] {fmt : Format}

namespace HeapCursor

variable {c start : HeapCursor σ fmt} {f : fmt.Assembled}

/-! ## Traversals by trial -/

theorem next_of_tryNext {moved : HeapCursor σ fmt} (h : c.tryNext = (.ok true, moved)) :
    c.next = (.ok (), moved) := by
  simp only [tryNext] at h
  simp only [next]
  cases hnext : c.hasNext with
  | error e =>
    rw [hnext] at h
    cases (Prod.mk.inj h).1
  | ok more =>
    rw [hnext] at h
    cases more with
    | false => cases (Prod.mk.inj h).1
    | true => rw [← (Prod.mk.inj h).2]

theorem visits_of_next {moved : HeapCursor σ fmt} (h : c.next = (.ok (), moved)) :
    c.visits = moved.current?.toList ++ moved.visits := by
  rw [visits]
  split
  next other hother => rw [(Prod.mk.inj (h.symm.trans hother)).2]
  next e other hother => cases (Prod.mk.inj (h.symm.trans hother)).1

/-- There is no row to come. -/
theorem visits_of_end (h : c.Placed) (hend : c.length ≤ c.position + 1) : c.visits = [] := by
  rw [visits_eq h]
  refine List.drop_eq_nil_of_le ?_
  simp only [length] at hend
  omega

theorem length_le_of_exhausted (hopen : c.closed = false) (h : c.next.1 = .error .exhausted) :
    c.length ≤ c.position + 1 := by
  refine Int.not_lt.mp fun hmore => ?_
  rw [next_of_hasRow hopen hmore] at h
  cases h

theorem length_le_of_ended (hopen : c.closed = false) (h : c.tryNext.1 = .ok false) :
    c.length ≤ c.position + 1 := by
  refine Int.not_lt.mp fun hmore => ?_
  rw [tryNext_of_hasRow hopen hmore] at h
  cases h

/-- The rows that a traversal by `tryNext` comes to, until it says that there is none. -/
def trials (c : HeapCursor σ fmt) : List (Codec fmt) :=
  match _h : c.tryNext with
  | (.ok true, moved) => moved.current?.toList ++ moved.trials
  | (.ok false, _) => []
  | (.error _, _) => []
termination_by (c.length - c.position).toNat
decreasing_by
  obtain ⟨hlt, rfl⟩ := next_ok (next_of_tryNext _h)
  simp only [length] at hlt ⊢
  omega

/-- They are the rows that a traversal by `next` comes to. -/
theorem trials_eq (h : c.Placed) : c.trials = c.visits := by
  fun_induction trials c with
  | case1 c moved hmove ih =>
    have hmoved : moved.Placed := by
      have hplaced := h.tryNext
      rwa [hmove] at hplaced
    rw [ih hmoved, visits_of_next (next_of_tryNext hmove)]
  | case2 c last hend =>
    exact (visits_of_end h (length_le_of_ended h.isOpen (congrArg Prod.fst hend))).symm
  | case3 c e last hfail =>
    -- An open cursor always tells whether there is a row.
    by_cases hmore : c.position + 1 < c.length
    · rw [tryNext_of_hasRow h.isOpen hmore] at hfail
      cases (Prod.mk.inj hfail).1
    · rw [tryNext_of_end h.isOpen (Int.not_lt.mp hmore)] at hfail
      cases (Prod.mk.inj hfail).1

/-! ## A row at the end -/

def withAdded (c : HeapCursor σ fmt) (f : fmt.Assembled) : HeapCursor σ fmt :=
  { c with codecs := c.codecs ++ [.ofFeature f], inputOrder := none }

theorem addFeature_eq (hopen : c.closed = false) :
    c.addFeature f = (.ok c.length, c.withAdded f) := by
  simp only [addFeature, hopen, Bool.false_eq_true, if_false, withAdded]

theorem placed_withAdded (h : c.Placed) (f : fmt.Assembled) : (c.withAdded f).Placed := by
  have hadded := h.addFeature f
  rwa [addFeature_eq h.isOpen] at hadded

/-- Wherever else than after the last row, the cursor shows what it showed. -/
theorem row_withAdded (hopen : c.closed = false) {position : Int} (h : position ≠ c.length) :
    (c.withAdded f).row position = c.row position := by
  have hlength : (c.withAdded f).length = c.length + 1 := List.length_append
  by_cases hrow : c.HasRow position
  · obtain ⟨codec, hcodec, hbefore⟩ := row_of_hasRow hopen hrow
    have hadded : (c.withAdded f).HasRow position := ⟨hrow.1, by have := hrow.2; omega⟩
    obtain ⟨codec', hcodec', hafter⟩ := row_of_hasRow (c := c.withAdded f) hopen hadded
    have hkept : (c.codecs ++ [Codec.ofFeature f])[position.toNat]? = some codec := by
      rw [List.getElem?_append_left (List.getElem?_eq_some_iff.mp hcodec).1, hcodec]
    rw [hbefore, hafter, Option.some.inj (hcodec'.symm.trans hkept)]
  · have hnone : ¬ (c.withAdded f).HasRow position := by
      simp only [HasRow] at hrow ⊢
      omega
    rw [row_of_not_hasRow hopen hrow, row_of_not_hasRow (c := c.withAdded f) hopen hnone]

/-- The place after the last row is that of the added one. -/
theorem row_length_withAdded (hopen : c.closed = false) :
    (c.withAdded f).row c.length = .ok (c.length, .ofFeature f) := by
  simp only [row, withAdded, hopen, Bool.false_eq_true, if_false, length, Int.toNat_natCast,
    Int.not_lt.mpr (Int.natCast_nonneg _), List.getElem?_concat_length]

/-- The rows to come are those of before and the added one, but nothing comes after the place of
    the added one. -/
theorem visits_withAdded (h : c.Placed) :
    (c.withAdded f).visits
      = if c.position = c.length then [] else c.visits ++ [.ofFeature f] := by
  have hlower := h.lower
  have hupper := h.upper
  rw [visits_eq (placed_withAdded h f), visits_eq h]
  simp only [withAdded]
  by_cases hplace : c.position = c.length
  · rw [if_pos hplace]
    refine List.drop_eq_nil_of_le ?_
    simp only [length] at hplace
    rw [List.length_append, List.length_singleton]
    omega
  · rw [if_neg hplace]
    refine List.drop_append_of_le_length ?_
    simp only [length] at hplace hupper
    omega

/-- The cursor `d` is the cursor `c` with a feature after its rows: it has the same position, and
    shows the same and comes to the feature at last, unless that position is after the last row. -/
structure Extended (c : HeapCursor σ fmt) (f : fmt.Assembled) (d : HeapCursor σ fmt) : Prop where
  placed : d.Placed
  codecs : d.codecs = c.codecs ++ [.ofFeature f]
  position : d.position = c.position
  shows : c.position ≠ c.length → d.currentCodec = c.currentCodec ∧
    ∀ {α : Type} (use : Codec fmt → α × Codec fmt), (d.onCurrent use).1 = (c.onCurrent use).1
  shown : c.position = c.length → c.current? = none ∧ d.current? = some (.ofFeature f)
  visits : d.visits = if c.position = c.length then [] else c.visits ++ [.ofFeature f]
  trials : d.trials = if c.position = c.length then [] else c.trials ++ [.ofFeature f]

theorem extended_withAdded (h : c.Placed) (f : fmt.Assembled) :
    c.Extended f (c.withAdded f) where
  placed := placed_withAdded h f
  codecs := rfl
  position := rfl
  shows := by
    intro hplace
    have hrow : (c.withAdded f).row c.position = c.row c.position :=
      row_withAdded h.isOpen hplace
    refine ⟨congrArg (Except.map Prod.snd) hrow, fun use => ?_⟩
    unfold onCurrent
    rw [show (c.withAdded f).position = c.position from rfl, hrow]
    cases c.row c.position <;> rfl
  shown := by
    intro hafter
    refine ⟨?_, ?_⟩
    · rw [current?_eq, hafter]
      exact rowAt?_of_not_hasRow h.isOpen fun hrow => Int.lt_irrefl _ hrow.2
    · rw [current?_eq, show (c.withAdded f).position = c.length from hafter, rowAt?,
        row_length_withAdded h.isOpen]
      rfl
  visits := visits_withAdded h
  trials := by
    rw [trials_eq (placed_withAdded h f), trials_eq h]
    exact visits_withAdded h

/-! ## Ends of a traversal -/

/-- A traversal that is ended by `next` goes past whatever is added then. -/
theorem visits_added_of_exhausted (h : c.Placed) (hend : c.next.1 = .error .exhausted) :
    (c.next.2.withAdded f).visits = [] := by
  have hmoved : c.next.2.position = c.next.2.length := by
    rw [next_of_end h.isOpen (length_le_of_exhausted h.isOpen hend)]
    rfl
  rw [visits_withAdded h.next, if_pos hmoved]

/-- A traversal that is ended by `tryNext` goes on with what is added then, unless it began after
    the last row. -/
theorem trials_added_of_ended (h : c.Placed) (hplace : c.position ≠ c.length)
    (hend : c.tryNext.1 = .ok false) : (c.tryNext.2.withAdded f).trials = [.ofFeature f] := by
  have hlast := length_le_of_ended h.isOpen hend
  rw [tryNext_of_end h.isOpen hlast, trials_eq (placed_withAdded h f), visits_withAdded h,
    if_neg hplace, visits_of_end h hlast]
  rfl

/-- However a heap cursor has been used, a feature is added after its rows and leaves it in its
    place. The feature is the last row to come, unless that place is after the last row: there
    a traversal that `next` has ended leaves the cursor, and one that `tryNext` has ended does
    not. -/
theorem adds_last_row (h : start.Fresh) (uses : List (HeapUse fmt)) (f : fmt.Assembled) :
    let c := start.afterUses uses
    (∃ d, c.addFeature f = (.ok c.length, d) ∧ c.Extended f d) ∧
      (c.next.1 = .error .exhausted →
        (c.next.2.addFeature f).2.visits = []) ∧
      (c.tryNext.1 = .ok false → c.position ≠ c.length →
        (c.tryNext.2.addFeature f).2.trials = [.ofFeature f]) := by
  intro c
  have hplaced : c.Placed := (Placed.fresh h).afterUses uses
  refine ⟨⟨c.withAdded f, addFeature_eq hplaced.isOpen, extended_withAdded hplaced f⟩,
    fun hend => ?_, fun hend hplace => ?_⟩
  · rw [addFeature_eq hplaced.next.isOpen]
    exact visits_added_of_exhausted hplaced hend
  · rw [addFeature_eq hplaced.tryNext.isOpen]
    exact trials_added_of_ended hplaced hplace hend

/-- When the only row has been removed, the cursor comes to the added row next. -/
theorem adds_last_row_to_emptied :
    let start : HeapCursor RowQueue .geo := .ofFeatures [({ id := "a" } : Feature)]
    let c := start.afterUses [.next, .call .removeFeature]
    let b : Feature := { id := "b" }
    start.Fresh ∧ c.position ≠ c.length ∧
      ∃ d, c.addFeature b = (.ok c.length, d) ∧ c.Extended b d ∧
        d.visits = c.visits ++ [.ofFeature b] := by
  intro start c b
  have hfresh : start.Fresh := @Fresh.ofFeatures Unit RowQueue _ .geo [({ id := "a" } : Feature)]
  have hplace : c.position ≠ c.length := by decide
  obtain ⟨d, hadd, hextended⟩ := (adds_last_row hfresh [.next, .call .removeFeature] b).1
  refine ⟨hfresh, hplace, d, hadd, hextended, ?_⟩
  rw [hextended.visits, if_neg hplace]

/-- A cursor that has been moved after its only row is on the row that is added then, and comes
    to no row. -/
theorem added_row_is_passed :
    let start : HeapCursor RowQueue .geo := .ofFeatures [({ id := "a" } : Feature)]
    let c := start.afterUses [.call .afterLast]
    let b : Feature := { id := "b" }
    let d := (c.addFeature b).2
    start.Fresh ∧ c.current? = none ∧ d.current? = some (.ofFeature b) ∧
      d.visits ≠ c.visits ++ [.ofFeature b] := by
  intro start c b d
  have hfresh : start.Fresh := @Fresh.ofFeatures Unit RowQueue _ .geo [({ id := "a" } : Feature)]
  have hplaced : c.Placed := (Placed.fresh hfresh).afterUses _
  have hnone : d.visits = [] := visits_withAdded hplaced
  refine ⟨hfresh, rfl, rfl, ?_⟩
  rw [hnone]
  exact (List.append_ne_nil_of_right_ne_nil _ (List.cons_ne_nil _ _)).symm

end HeapCursor

end FeatureStore
