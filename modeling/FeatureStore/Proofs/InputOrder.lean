-- SUMMARY: Restoring the submission order of a heap cursor: a stable sort of all its rows, or nothing at all.
import FeatureStore.Proofs.GapPositions
import FeatureStore.Proofs.PairedForms
import FeatureStore.Proofs.Submission
import Mathlib.Data.List.Forall2
import Mathlib.Data.List.Nodup
import Mathlib.Data.List.Perm.Subperm

/-!
# The order of submission

A heap cursor that knows the ranks of ids can put its rows into the order of these ranks. It
reads the ids one by one on the way, so rows may be found decoded afterwards, but what is read
of them stays the same. If one row has no rank then all rows stay where they are. Otherwise
they are sorted, and rows of the same rank keep their order.

Moving around and removing rows does not forget the ranks, so whatever rows are left can be
put into the order in which they were submitted. Adding a row or replacing one does forget
them.
-/

namespace FeatureStore

variable {ε σ : Type} [RowSource ε σ] {fmt : Format}

/-! ## Ranks -/

/-- The rank of a row by the id that is read of it. -/
def Codec.rank? (order : Keyed Nat) (codec : Codec fmt) : Option Nat :=
  codec.id.1.bind order.find?

def Codec.rank (order : Keyed Nat) (codec : Codec fmt) : Nat := (codec.rank? order).getD 0

theorem Codec.id_sync (codec : Codec fmt) : codec.sync.id.1 = codec.id.1 := by
  simp only [Codec.id, read, sync_sync]

theorem Codec.rank?_sync (order : Keyed Nat) (codec : Codec fmt) :
    codec.sync.rank? order = codec.rank? order := by
  rw [rank?, rank?, id_sync]

/-- What has been sorted by ranks is in their order. -/
theorem pairwise_sorted {α : Type} (rank : α → Nat) (rows : List α) :
    (rows.mergeSort (fun a b => decide (rank a ≤ rank b))).Pairwise
      (fun a b => rank a ≤ rank b) := by
  refine (List.pairwise_mergeSort (fun a b c hab hbc => ?_) (fun a b => ?_) rows).imp
    of_decide_eq_true
  · exact decide_eq_true (Nat.le_trans (of_decide_eq_true hab) (of_decide_eq_true hbc))
  · simpa using Nat.le_total (rank a) (rank b)

namespace HeapCursor

variable {c d : HeapCursor σ fmt} {order : Keyed Nat} {codecs : List (Codec fmt)}

/-- Either every row has a rank, or one has none. -/
theorem ranks_or_missing (order : Keyed Nat) (codecs : List (Codec fmt)) :
    (∃ rank : Codec fmt → Nat, ∀ row ∈ codecs, row.rank? order = some (rank row)) ∨
      ∃ row ∈ codecs, row.rank? order = none := by
  by_cases h : ∀ row ∈ codecs, (row.rank? order).isSome = true
  · refine .inl ⟨fun row => (row.rank? order).getD 0, fun row hrow => ?_⟩
    obtain ⟨rank, hrank⟩ := Option.isSome_iff_exists.mp (h row hrow)
    simp only [hrank, Option.getD_some]
  · exact .inr (by simpa using h)

/-- If every row has a rank then all rows are read, and their ranks are found. -/
theorem ranked_of_ranks {rank : Codec fmt → Nat}
    (h : ∀ row ∈ codecs, row.rank? order = some (rank row)) :
    ranked order codecs = (some (codecs.map rank), codecs.map Codec.sync) := by
  induction codecs with
  | nil => rfl
  | cons row rest ih =>
    have hrow : row.id.1.bind order.find? = some (rank row) := h row List.mem_cons_self
    have hrest := ih (fun other hother => h other (List.mem_cons_of_mem _ hother))
    simp only [ranked, hrow, hrest, Option.map_some]
    rfl

/-- One row without a rank is enough for there to be no ranks. -/
theorem ranked_of_missing {row : Codec fmt} (hrow : row ∈ codecs) (h : row.rank? order = none) :
    (ranked order codecs).1 = none := by
  induction codecs with
  | nil => cases hrow
  | cons head rest ih =>
    simp only [ranked]
    split
    · rfl
    next rank hrank =>
      have hrest : row ∈ rest := by
        rcases List.mem_cons.mp hrow with rfl | hrest
        · cases h.symm.trans hrank
        · exact hrest
      exact Option.map_eq_none_iff.mpr (ih hrest)

/-- Each row is left as it was, or with its parts derived. -/
theorem ranked_reads (order : Keyed Nat) (codecs : List (Codec fmt)) :
    List.Forall₂ (fun row read => read = row ∨ read = row.sync) codecs (ranked order codecs).2 := by
  induction codecs with
  | nil => exact .nil
  | cons row rest ih =>
    simp only [ranked]
    split
    · exact .cons (.inr rfl) (List.forall₂_same.mpr fun _ _ => .inl rfl)
    · exact .cons (.inr rfl) ih

/-- What does not depend on whether the parts have been derived is the same for all rows. -/
theorem map_of_reads {α : Type} {reads : List (Codec fmt)} (f : Codec fmt → α)
    (h : List.Forall₂ (fun row read => read = row ∨ read = row.sync) codecs reads)
    (hf : ∀ row ∈ codecs, f row.sync = f row) : reads.map f = codecs.map f := by
  induction h with
  | nil => rfl
  | @cons row read _ _ hread _ ih =>
    have hhead : f read = f row := by
      rcases hread with rfl | rfl
      · rfl
      · exact hf row List.mem_cons_self
    have hrest := ih (fun other hother => hf other (List.mem_cons_of_mem _ hother))
    rw [List.map_cons, List.map_cons, hhead, hrest]

/-- The ranks are sorted along with the rows, so the rows are sorted by them. -/
theorem sortByRank_eq (rank : Codec fmt → Nat) (codecs : List (Codec fmt)) :
    sortByRank (codecs.map rank) (codecs.map Codec.sync)
      = (codecs.mergeSort (fun a b => decide (rank a ≤ rank b))).map Codec.sync := by
  have hsorted :
      (codecs.mergeSort (fun a b => decide (rank a ≤ rank b))).map (fun row => (rank row, row.sync))
        = (codecs.map (fun row => (rank row, row.sync))).mergeSort
            (fun a b => decide (a.1 ≤ b.1)) :=
    List.map_mergeSort fun _ _ _ _ => rfl
  rw [sortByRank, List.zip_map', ← hsorted, List.map_map]
  rfl

/-- Sorting by ranks leaves the rows of one rank in their order. -/
theorem filter_sorted {rank : Codec fmt → Nat} {p : Codec fmt → Bool} (place : Nat)
    (h : ∀ row ∈ codecs, p row = true → rank row = place) :
    (codecs.mergeSort (fun a b => decide (rank a ≤ rank b))).filter p = codecs.filter p := by
  refine filter_mergeSort (fun a b c hab hbc => ?_) (fun a b => ?_) p ?_
  · exact decide_eq_true (Nat.le_trans (of_decide_eq_true hab) (of_decide_eq_true hbc))
  · simpa using Nat.le_total (rank a) (rank b)
  · refine List.Pairwise.imp_of_mem ?_
      (List.pairwise_of_forall (R := fun _ _ => True) (fun _ _ => trivial))
    intro a b ha hb _
    rw [List.mem_filter] at ha hb
    have hsame : rank a = rank b := (h a ha.1 ha.2).trans (h b hb.1 hb.2).symm
    exact decide_eq_true (Nat.le_of_eq hsame)

/-! ## Restoring the order -/

/-- A cursor that has no ranks leaves everything as it is. -/
theorem restoreInputOrder_of_none (h : c.inputOrder = none) :
    c.restoreInputOrder = (false, c) := by
  simp only [restoreInputOrder, h]

theorem restoreInputOrder_of_missing (h : c.inputOrder = some order) {row : Codec fmt}
    (hrow : row ∈ c.codecs) (hmissing : row.rank? order = none) :
    c.restoreInputOrder = (false, { c with codecs := (ranked order c.codecs).2 }) := by
  have hnone := ranked_of_missing hrow hmissing
  simp only [restoreInputOrder, h]
  rcases hranked : ranked order c.codecs with ⟨ranks?, codecs⟩
  rw [hranked] at hnone
  cases hnone
  rfl

theorem restoreInputOrder_of_ranks (h : c.inputOrder = some order) {rank : Codec fmt → Nat}
    (hrank : ∀ row ∈ c.codecs, row.rank? order = some (rank row)) :
    c.restoreInputOrder
      = (true,
          { c with
            codecs := (c.codecs.mergeSort (fun a b => decide (rank a ≤ rank b))).map Codec.sync
            position := -1 }) := by
  simp only [restoreInputOrder, h, ranked_of_ranks hrank, sortByRank_eq]

/-- The rows of `d` are those of `c` in the order of their ranks, and `d` is before the first. -/
structure InOrder (order : Keyed Nat) (c d : HeapCursor σ fmt) : Prop where
  rows : d.codecs.Perm (c.codecs.map Codec.sync)
  shown : (d.codecs.map Codec.shown).Perm (c.codecs.map Codec.shown)
  ascending : d.codecs.Pairwise (fun a b =>
    ∀ m n, a.rank? order = some m → b.rank? order = some n → m ≤ n)
  stable : ∀ rank : Nat, d.codecs.filter (fun row => row.rank? order = some rank)
    = (c.codecs.map Codec.sync).filter (fun row => row.rank? order = some rank)
  position : d.position = -1
  order : d.inputOrder = c.inputOrder

/-- The cursor `d` is where `c` is, among rows of which the same is read. -/
structure Kept (c d : HeapCursor σ fmt) : Prop where
  rows : List.Forall₂ (fun row read => read = row ∨ read = row.sync) c.codecs d.codecs
  shown : d.codecs.map Codec.shown = c.codecs.map Codec.shown
  position : d.position = c.position
  order : d.inputOrder = c.inputOrder

/-- What restoring the order comes to. -/
structure Restores (c : HeapCursor σ fmt) : Prop where
  known : c.restoreInputOrder.1 = true ↔
    ∃ order, c.inputOrder = some order ∧ ∀ row ∈ c.codecs, (row.rank? order).isSome = true
  inOrder : c.restoreInputOrder.1 = true → ∀ order, c.inputOrder = some order →
    InOrder order c c.restoreInputOrder.2
  kept : c.restoreInputOrder.1 = false → Kept c c.restoreInputOrder.2

theorem shown_map_sync (h : ∀ row ∈ codecs, row.Reached) :
    (codecs.map Codec.sync).map Codec.shown = codecs.map Codec.shown := by
  rw [List.map_map]
  exact List.map_congr_left fun row hrow => (h row hrow).paired.shown_sync

/-- Sorting by ranks is stable. -/
theorem inOrder_of_ranks (hreached : ∀ row ∈ c.codecs, row.Reached) (h : c.inputOrder = some order)
    {rank : Codec fmt → Nat} (hrank : ∀ row ∈ c.codecs, row.rank? order = some (rank row)) :
    InOrder order c c.restoreInputOrder.2 := by
  rw [restoreInputOrder_of_ranks h hrank]
  -- Looking for the ranks decodes the rows. Their order is that of the rows before it.
  let sorted := c.codecs.mergeSort (fun a b => decide (rank a ≤ rank b))
  have hrows : (sorted.map Codec.sync).Perm (c.codecs.map Codec.sync) :=
    (List.mergeSort_perm c.codecs _).map _
  have hmem {row : Codec fmt} (hrow : row ∈ sorted) : row.rank? order = some (rank row) :=
    hrank row (List.mem_mergeSort.mp hrow)
  exact {
    rows := hrows
    shown := shown_map_sync hreached ▸ hrows.map Codec.shown
    ascending := by
      refine List.pairwise_map.mpr ((pairwise_sorted rank c.codecs).imp_of_mem ?_)
      intro a b ha hb hle m n hm hn
      rw [Codec.rank?_sync, hmem ha] at hm
      rw [Codec.rank?_sync, hmem hb] at hn
      cases hm
      cases hn
      exact hle
    stable := by
      intro place
      rw [List.filter_map, List.filter_map]
      refine congrArg (List.map Codec.sync) (filter_sorted place fun row hrow hplace => ?_)
      have hsome : row.rank? order = some place :=
        (row.rank?_sync order).symm.trans (of_decide_eq_true hplace)
      exact Option.some.inj ((hrank row hrow).symm.trans hsome)
    position := rfl
    order := rfl }

theorem kept_of_missing (hreached : ∀ row ∈ c.codecs, row.Reached) (h : c.inputOrder = some order)
    {row : Codec fmt} (hrow : row ∈ c.codecs) (hmissing : row.rank? order = none) :
    Kept c c.restoreInputOrder.2 := by
  have hreads := ranked_reads order c.codecs
  rw [restoreInputOrder_of_missing h hrow hmissing]
  exact {
    rows := hreads
    shown := map_of_reads Codec.shown hreads fun row hrow => (hreached row hrow).paired.shown_sync
    position := rfl
    order := rfl }

/-- Restoring the order sorts all rows by their ranks, or it changes nothing that is read. -/
theorem restores (hreached : ∀ row ∈ c.codecs, row.Reached) : c.Restores := by
  -- There is no order, or every row has its rank, or one has none and all is left as it was.
  cases horder : c.inputOrder with
  | none =>
    have hrestored := restoreInputOrder_of_none horder
    refine ⟨?_, ?_, ?_⟩
    · rw [hrestored, horder]
      simp
    · intro hdone
      rw [hrestored] at hdone
      cases hdone
    · intro _
      rw [hrestored]
      exact ⟨List.forall₂_same.mpr fun _ _ => .inl rfl, rfl, rfl, rfl⟩
  | some order =>
    rcases ranks_or_missing order c.codecs with ⟨rank, hrank⟩ | ⟨row, hrow, hmissing⟩
    · have hdone : c.restoreInputOrder.1 = true := by rw [restoreInputOrder_of_ranks horder hrank]
      refine ⟨⟨fun _ => ⟨order, horder, fun row hrow => ?_⟩, fun _ => hdone⟩, ?_, ?_⟩
      · rw [hrank row hrow, Option.isSome_some]
      · intro _ other hother
        obtain rfl : order = other := Option.some.inj (horder.symm.trans hother)
        exact inOrder_of_ranks hreached horder hrank
      · intro hfailed
        cases hdone.symm.trans hfailed
    · have hfailed : c.restoreInputOrder.1 = false := by
        rw [restoreInputOrder_of_missing horder hrow hmissing]
      refine ⟨⟨fun hdone => ?_, fun ⟨other, hother, hall⟩ => ?_⟩, ?_, ?_⟩
      · cases hfailed.symm.trans hdone
      · obtain rfl : order = other := Option.some.inj (horder.symm.trans hother)
        have hsome := hall row hrow
        rw [hmissing] at hsome
        cases hsome
      · intro hdone
        cases hfailed.symm.trans hdone
      · intro _
        exact kept_of_missing hreached horder hrow hmissing

end HeapCursor

/-! ## Moving around and removing rows -/

/-- The call moves the cursor, or removes a row, or puts the rows into order. -/
def HeapCall.travels : HeapCall → Bool
  | .absolute _ | .relative _ | .previous | .first | .last | .beforeFirst | .afterLast => true
  | .removeFeatureAt _ | .removeFeature | .restoreInputOrder => true
  | .addFeature _ | .setFeatureAt _ _ | .setFeature _ | .withOrder _ => false

/-- The use moves the cursor, or removes a row, or puts the rows into order. -/
def HeapUse.travels : HeapUse fmt → Bool
  | .next | .tryNext => true
  | .row _ => false
  | .call own => own.travels

namespace HeapCursor

variable {c start : HeapCursor σ fmt} {order : Keyed Nat} {submitted arranged : List (Codec fmt)}

/-- The cursor is the same but for its position. -/
def Moved (c d : HeapCursor σ fmt) : Prop := ∃ place, d = { c with position := place }

theorem moved_absolute (c : HeapCursor σ fmt) (position : Int) :
    Moved c (c.absolute position).2 := by
  unfold absolute
  split
  · exact ⟨c.position, rfl⟩
  split
  · exact ⟨c.length, rfl⟩
  split
  · exact ⟨-1, rfl⟩
  · exact ⟨position, rfl⟩

theorem moved_next (c : HeapCursor σ fmt) : Moved c c.next.2 := by
  unfold next
  split
  · exact ⟨c.position + 1, rfl⟩
  · exact ⟨c.length, rfl⟩
  · exact ⟨c.position, rfl⟩

theorem moved_tryNext (c : HeapCursor σ fmt) : Moved c c.tryNext.2 := by
  unfold tryNext
  split
  · exact ⟨c.position + 1, rfl⟩
  · exact ⟨c.position, rfl⟩
  · exact ⟨c.position, rfl⟩

/-- The cursor knows the ranks, and its rows are some of those that were submitted. -/
structure Survives (submitted : List (Codec fmt)) (order : Keyed Nat) (c : HeapCursor σ fmt) :
    Prop where
  order : c.inputOrder = some order
  rows : (c.codecs.map Codec.sync).Subperm (submitted.map Codec.sync)

namespace Survives

/-- Fewer rows in the same order are some of them, too. -/
theorem of_sublist (h : Survives submitted order c) {d : HeapCursor σ fmt}
    (horder : d.inputOrder = c.inputOrder) (hrows : d.codecs.Sublist c.codecs) :
    Survives submitted order d :=
  ⟨horder.trans h.order, (hrows.map Codec.sync).subperm.trans h.rows⟩

theorem moved (h : Survives submitted order c) {d : HeapCursor σ fmt} (hmoved : Moved c d) :
    Survives submitted order d := by
  obtain ⟨place, rfl⟩ := hmoved
  exact h.of_sublist rfl (.refl _)

theorem removeFeatureAt (h : Survives submitted order c) (position : Int) :
    Survives submitted order (c.removeFeatureAt position).2 := by
  unfold HeapCursor.removeFeatureAt
  split
  · exact h.of_sublist rfl (List.eraseIdx_sublist _ _)
  · exact h

theorem restoreInputOrder (h : Survives submitted order c) :
    Survives submitted order c.restoreInputOrder.2 := by
  have hsync : ∀ row ∈ c.codecs, row.sync.sync = row.sync := fun row _ => row.sync_sync
  rcases ranks_or_missing order c.codecs with ⟨rank, hrank⟩ | ⟨row, hrow, hmissing⟩
  · rw [restoreInputOrder_of_ranks h.order hrank]
    refine ⟨h.order, (List.Perm.subperm_right ?_).mp h.rows⟩
    have hsorted := (List.mergeSort_perm c.codecs (fun a b => decide (rank a ≤ rank b))).map Codec.sync
    simpa only [List.map_map, Function.comp_def, Codec.sync_sync] using hsorted.symm
  · rw [restoreInputOrder_of_missing h.order hrow hmissing]
    refine ⟨h.order, ?_⟩
    rw [map_of_reads Codec.sync (ranked_reads order c.codecs) hsync]
    exact h.rows

theorem afterUse (h : Survives submitted order c) {use : HeapUse fmt}
    (htravels : use.travels = true) : Survives submitted order (c.afterUse use) := by
  cases use with
  | next => exact h.moved c.moved_next
  | tryNext => exact h.moved c.moved_tryNext
  | row change => cases htravels
  | call call =>
    cases call with
    | absolute position => exact h.moved (c.moved_absolute position)
    | relative offset => exact h.moved (c.moved_absolute _)
    | previous => exact h.moved (c.moved_absolute _)
    | first => exact h.moved (c.moved_absolute _)
    | last => exact h.moved (c.moved_absolute _)
    | beforeFirst => exact h.moved (c.moved_absolute _)
    | afterLast => exact h.moved (c.moved_absolute _)
    | removeFeatureAt position => exact h.removeFeatureAt position
    | removeFeature => exact h.removeFeatureAt c.position
    | restoreInputOrder => exact h.restoreInputOrder
    | addFeature f => cases htravels
    | setFeatureAt position f => cases htravels
    | setFeature f => cases htravels
    | withOrder other => cases htravels

theorem afterUses (h : Survives submitted order c) {uses : List (HeapUse fmt)}
    (htravels : ∀ use ∈ uses, use.travels = true) :
    Survives submitted order (c.afterUses uses) := by
  induction uses generalizing c with
  | nil => exact h
  | cons use rest ih =>
    exact ih (h.afterUse (htravels use List.mem_cons_self))
      (fun other hother => htravels other (List.mem_cons_of_mem _ hother))

end Survives

/-- Rows with distinct ids, and their places as ranks. -/
structure Submitted (submitted : List (Codec fmt)) (ids : List String) (order : Keyed Nat) :
    Prop where
  carried : submitted.map (fun row => row.id.1) = ids.map some
  distinct : ids.Nodup
  ranks : ∀ place id, ids[place]? = some id → order.find? id = some place

namespace Submitted

variable {ids : List String}

/-- The rank of a row is its place. -/
theorem rank?_eq (h : Submitted submitted ids order) {place : Nat} {row : Codec fmt}
    (hrow : (submitted.map Codec.sync)[place]? = some row) : row.rank? order = some place := by
  rw [List.getElem?_map, Option.map_eq_some_iff] at hrow
  obtain ⟨source, hsource, rfl⟩ := hrow
  have hid := congrArg (fun ids => ids[place]?) h.carried
  simp only [List.getElem?_map, hsource, Option.map_some] at hid
  obtain ⟨id, hplace, hsome⟩ := Option.map_eq_some_iff.mp hid.symm
  rw [Codec.rank?_sync, Codec.rank?, ← hsome]
  exact h.ranks place id hplace

theorem rank_eq (h : Submitted submitted ids order) {place : Nat} {row : Codec fmt}
    (hrow : (submitted.map Codec.sync)[place]? = some row) : row.rank order = place := by
  rw [Codec.rank, h.rank?_eq hrow, Option.getD_some]

/-- So the rows are in the order of their ranks, and no rank comes twice. -/
theorem ascending (h : Submitted submitted ids order) :
    (submitted.map Codec.sync).Pairwise (fun a b => a.rank order < b.rank order) := by
  refine List.pairwise_iff_getElem.mpr fun i j hi hj hij => ?_
  rw [h.rank_eq (List.getElem?_eq_getElem hi), h.rank_eq (List.getElem?_eq_getElem hj)]
  exact hij

theorem nodup (h : Submitted submitted ids order) : (submitted.map Codec.sync).Nodup := by
  refine h.ascending.imp fun {a b} hlt heq => ?_
  rw [heq] at hlt
  exact Nat.lt_irrefl _ hlt

theorem eq_of_rank (h : Submitted submitted ids order) {a b : Codec fmt}
    (ha : a ∈ submitted.map Codec.sync) (hb : b ∈ submitted.map Codec.sync)
    (hrank : a.rank order = b.rank order) : a = b := by
  obtain ⟨i, hi⟩ := List.mem_iff_getElem?.mp ha
  obtain ⟨j, hj⟩ := List.mem_iff_getElem?.mp hb
  rw [h.rank_eq hi, h.rank_eq hj] at hrank
  exact Option.some.inj (hi.symm.trans (hrank ▸ hj))

/-- The submitted rows of which one with the same id is left. -/
def leftOf (c : HeapCursor σ fmt) (rows : List (Codec fmt)) : List (Codec fmt) :=
  rows.filter (fun row => row.id.1 ∈ c.codecs.map (fun left => left.id.1))

theorem leftOf_map_sync (c : HeapCursor σ fmt) (rows : List (Codec fmt)) :
    leftOf c (rows.map Codec.sync) = (leftOf c rows).map Codec.sync := by
  simp only [leftOf, List.filter_map, Function.comp_def, Codec.id_sync]

/-- They are the rows that are left. -/
theorem perm_leftOf (h : Submitted submitted ids order) (hleft : Survives submitted order c) :
    (leftOf c (submitted.map Codec.sync)).Perm (c.codecs.map Codec.sync) := by
  obtain ⟨kept, hkept, hsublist⟩ := hleft.rows
  refine (List.perm_ext_iff_of_nodup (h.nodup.filter _)
    (hkept.nodup_iff.mp (h.nodup.sublist hsublist))).mpr fun row => ?_
  rw [List.mem_filter, decide_eq_true_eq]
  constructor
  · rintro ⟨hrow, hid⟩
    obtain ⟨left, hlast, hsame⟩ := List.mem_map.mp hid
    have hsynced : left.sync ∈ c.codecs.map Codec.sync := List.mem_map_of_mem hlast
    have hrank : left.sync.rank order = row.rank order := by
      simp only [Codec.rank, Codec.rank?, Codec.id_sync, hsame]
    rw [← h.eq_of_rank (hleft.rows.subset hsynced) hrow hrank]
    exact hsynced
  · intro hrow
    obtain ⟨left, hlast, rfl⟩ := List.mem_map.mp hrow
    refine ⟨hleft.rows.subset hrow, ?_⟩
    rw [Codec.id_sync]
    exact List.mem_map_of_mem hlast

/-- The rows that are left are put into the order in which they were submitted. -/
theorem restores_left (h : Submitted submitted ids order) (hleft : Survives submitted order c) :
    c.restoreInputOrder.1 = true ∧
      c.restoreInputOrder.2.codecs.Perm (c.codecs.map Codec.sync) ∧
      c.restoreInputOrder.2.codecs = (leftOf c submitted).map Codec.sync := by
  have hrank (row : Codec fmt) (hrow : row ∈ c.codecs) :
      row.rank? order = some (row.rank order) := by
    obtain ⟨place, hplace⟩ := List.mem_iff_getElem?.mp (hleft.rows.subset (List.mem_map_of_mem hrow))
    have hsome := (row.rank?_sync order).symm.trans (h.rank?_eq hplace)
    simp only [Codec.rank, hsome, Option.getD_some]
  have hsorted : ((c.codecs.mergeSort (fun a b => decide (a.rank order ≤ b.rank order))).map
      Codec.sync).Perm (c.codecs.map Codec.sync) := (List.mergeSort_perm c.codecs _).map _
  have hperm := hsorted.trans (h.perm_leftOf hleft).symm
  have hmem {row : Codec fmt} (hrow : row ∈ leftOf c (submitted.map Codec.sync)) :
      row ∈ submitted.map Codec.sync := List.mem_of_mem_filter hrow
  rw [restoreInputOrder_of_ranks hleft.order hrank, ← leftOf_map_sync]
  refine ⟨rfl, hsorted, ?_⟩
  refine @List.Perm.eq_of_pairwise _ (fun a b => a.rank order ≤ b.rank order) _ _ ?_ ?_ ?_ hperm
  · intro a b ha hb hab hba
    exact h.eq_of_rank (hmem (hperm.subset ha)) (hmem hb) (Nat.le_antisymm hab hba)
  · refine List.pairwise_map.mpr ((pairwise_sorted (Codec.rank order) c.codecs).imp ?_)
    intro a b hle
    simpa only [Codec.rank, Codec.rank?_sync] using hle
  · exact (h.ascending.imp Nat.le_of_lt).filter _

end Submitted

end HeapCursor

/-! ## Adding rows and replacing them -/

/-- The use gives the cursor an order. -/
def HeapUse.attaches : HeapUse fmt → Bool
  | .call (.withOrder _) => true
  | _ => false

namespace HeapCursor

variable {c d : HeapCursor σ fmt}

/-- A row has been added to the cursor, or replaced. -/
inductive Edited (c : HeapCursor σ fmt) : HeapCursor σ fmt → Prop
  | added {f : fmt.Assembled} {position : Int} (h : (c.addFeature f).1 = .ok position) :
      Edited c (c.addFeature f).2
  | replaced {position : Int} {f : fmt.Assembled} {old : Option fmt.Assembled}
      (h : (c.setFeatureAt position f).1 = .ok old) : Edited c (c.setFeatureAt position f).2
  | current {f : fmt.Assembled} {old : Option fmt.Assembled}
      (h : (c.setFeature f).1 = .ok old) : Edited c (c.setFeature f).2

theorem inputOrder_setFeatureAt {position : Int} {f : fmt.Assembled} {old : Option fmt.Assembled}
    (h : (c.setFeatureAt position f).1 = .ok old) :
    (c.setFeatureAt position f).2.inputOrder = none := by
  unfold setFeatureAt at h ⊢
  cases hrow : c.row position with
  | ok row => rfl
  | error e =>
    rw [hrow] at h
    cases h

/-- That forgets the order. -/
theorem Edited.inputOrder_eq (h : Edited c d) : d.inputOrder = none := by
  cases h with
  | added h =>
    unfold addFeature at h ⊢
    split at h
    · cases h
    next hopen => rw [if_neg hopen]
  | replaced h => exact inputOrder_setFeatureAt h
  | current h => exact inputOrder_setFeatureAt h

/-- A forgotten order is not found again. -/
theorem inputOrder_afterUse (h : c.inputOrder = none) {use : HeapUse fmt}
    (hattaches : use.attaches = false) : (c.afterUse use).inputOrder = none := by
  have hmoved {d : HeapCursor σ fmt} (hd : Moved c d) : d.inputOrder = none := by
    obtain ⟨place, rfl⟩ := hd
    exact h
  have hset (position : Int) (f : fmt.Assembled) :
      (c.setFeatureAt position f).2.inputOrder = none := by
    unfold setFeatureAt
    split
    · rfl
    · exact h
  have hremove (position : Int) : (c.removeFeatureAt position).2.inputOrder = none := by
    unfold removeFeatureAt
    split
    · exact h
    · exact h
  -- Only attaching an order could bring one back, and no edit does that.
  cases use with
  | next => exact hmoved c.moved_next
  | tryNext => exact hmoved c.moved_tryNext
  | row change =>
    simp only [afterUse, onCurrent]
    split <;> exact h
  | call call =>
    cases call with
    | absolute position => exact hmoved (c.moved_absolute position)
    | relative offset => exact hmoved (c.moved_absolute _)
    | previous => exact hmoved (c.moved_absolute _)
    | first => exact hmoved (c.moved_absolute _)
    | last => exact hmoved (c.moved_absolute _)
    | beforeFirst => exact hmoved (c.moved_absolute _)
    | afterLast => exact hmoved (c.moved_absolute _)
    | addFeature f =>
      simp only [afterUse, after, addFeature]
      split
      · exact h
      · rfl
    | setFeatureAt position f => exact hset position (f fmt)
    | setFeature f => exact hset c.position (f fmt)
    | removeFeatureAt position => exact hremove position
    | removeFeature => exact hremove c.position
    | restoreInputOrder =>
      change c.restoreInputOrder.2.inputOrder = none
      rw [restoreInputOrder_of_none h]
      exact h
    | withOrder order => cases hattaches

theorem Edited.restores_nothing (h : Edited c d) {uses : List (HeapUse fmt)}
    (hattach : ∀ use ∈ uses, use.attaches = false) :
    (d.afterUses uses).restoreInputOrder.1 = false := by
  have hnone : (d.afterUses uses).inputOrder = none := by
    have hd := h.inputOrder_eq
    clear h
    induction uses generalizing d with
    | nil => exact hd
    | cons use rest ih =>
      exact ih (fun other hother => hattach other (List.mem_cons_of_mem _ hother))
        (inputOrder_afterUse hd (hattach use List.mem_cons_self))
  rw [restoreInputOrder_of_none hnone]

/-! ## The order of submission -/

/-- A cursor restores the order of all its rows or reads some of them and leaves them where they
    are. Rows that were submitted with distinct ids come back into their order from any other,
    whatever moves and removals there have been. Once a row has been added or replaced there is
    no way back. -/
theorem submission_order_is_restored :
    (∀ c : HeapCursor σ fmt, (∀ row ∈ c.codecs, row.Reached) → c.Restores) ∧
    (∀ (submitted arranged : List (Codec fmt)) (ids : List String) (order : Keyed Nat),
      Submitted submitted ids order → arranged.Perm submitted →
      ∀ uses : List (HeapUse fmt), (∀ use ∈ uses, use.travels = true) →
        let c : HeapCursor σ fmt := ((ofCodecs arranged).withOrder order).afterUses uses
        c.restoreInputOrder.1 = true ∧
          c.restoreInputOrder.2.codecs.Perm (c.codecs.map Codec.sync) ∧
          c.restoreInputOrder.2.codecs = (Submitted.leftOf c submitted).map Codec.sync) ∧
    ∀ c d : HeapCursor σ fmt, Edited c d →
      ∀ uses : List (HeapUse fmt), (∀ use ∈ uses, use.attaches = false) →
        (d.afterUses uses).restoreInputOrder.1 = false := by
  refine ⟨fun c hreached => restores hreached, ?_, fun c d hedited uses => hedited.restores_nothing⟩
  intro submitted arranged ids order hsubmitted hperm uses htravels c
  have hstart : Survives submitted order ((ofCodecs arranged).withOrder order : HeapCursor σ fmt) :=
    ⟨rfl, (hperm.map Codec.sync).subperm⟩
  exact hsubmitted.restores_left (hstart.afterUses htravels)

/-- Two of three rows come back into their order after the row between them has been removed. -/
theorem submission_order_is_restored_of_two_rows :
    let row (id : String) : Codec .geo := .ofFeature { id }
    let c : HeapCursor RowQueue .geo :=
      ((ofCodecs [row "c", row "a", row "b"]).withOrder [("a", 0), ("b", 1), ("c", 2)]).afterUses
        [.next, .call (.removeFeatureAt 1)]
    c.restoreInputOrder.1 = true ∧
      c.restoreInputOrder.2.codecs.map (fun row => row.id.1) = [some "b", some "c"] := by
  intro row c
  have hsubmitted : Submitted [row "a", row "b", row "c"] ["a", "b", "c"]
      [("a", 0), ("b", 1), ("c", 2)] := by
    refine ⟨rfl, by decide, fun place id hid => ?_⟩
    rcases place with _ | _ | _ | place
    · cases hid
      rfl
    · cases hid
      rfl
    · cases hid
      rfl
    · cases hid
  have hperm : [row "c", row "a", row "b"].Perm [row "a", row "b", row "c"] :=
    @List.perm_append_comm _ [row "c"] [row "a", row "b"]
  obtain ⟨-, hrestores, -⟩ := @submission_order_is_restored RowQueue .geo
  obtain ⟨hdone, -, hcodecs⟩ := hrestores _ _ _ _ hsubmitted hperm
    [.next, .call (.removeFeatureAt 1)] (by decide)
  refine ⟨hdone, (congrArg (List.map fun row => row.id.1) hcodecs).trans ?_⟩
  rfl

/-- An order is given to a closed cursor as to any other, and there is nothing to be sorted. -/
theorem closed_cursor_restores_an_order :
    let c : HeapCursor RowQueue .geo := (ofCodecs []).close.withOrder []
    c.closed = true ∧ c.hasInputOrder = true ∧ c.restoreInputOrder.1 = true :=
  ⟨rfl, rfl, rfl⟩

end HeapCursor

end FeatureStore
