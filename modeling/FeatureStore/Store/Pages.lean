-- SUMMARY: The live rows of a collection, fetched from a database in pages as they are read.
import FeatureStore.Cursor.Source
import FeatureStore.Store.Database

/-!
# Pages

A read of a collection fetches its live rows in pages. A page begins after the last
id of the page before it, so a page is found by its ids and not by counting rows:
whatever is written between two pages, no row comes twice, and none is skipped that
stays live. A page that is not full is the last.

The environment of the source is the database, as it is when a page is fetched, and as
the connection sees it.
-/

namespace FeatureStore

namespace Records

/-- Whether an id comes after another one, if there is one. -/
def isAfter (after : Option String) (id : String) : Bool :=
  match after with
  | none => true
  | some last => decide (last < id)

/-- The live records whose ids come after a given one. -/
def liveAfter (records : Records) (after : Option String) : List (String × StoredRecord) :=
  records.entries.filter (fun entry => !entry.2.deleted && isAfter after entry.1)

theorem ascending_liveAfter (records : Records) (after : Option String) :
    Keyed.Ascending (records.liveAfter after) :=
  records.ascending.sublist List.filter_sublist

@[simp] theorem liveAfter_none (records : Records) : records.liveAfter none = records.live := by
  simp [liveAfter, live, isAfter]

/-- The records after a later id are found among those after an earlier one. -/
theorem liveAfter_of_isAfter (records : Records) {after : Option String} {last : String}
    (h : isAfter after last = true) :
    records.liveAfter (some last)
      = (records.liveAfter after).filter (fun entry => decide (last < entry.1)) := by
  rw [liveAfter, liveAfter, List.filter_filter]
  apply List.filter_congr
  intro entry _
  by_cases hlt : last < entry.1
  · cases after with
    | none => simp [isAfter, hlt]
    | some first =>
      have hfirst : first < last := by simpa [isAfter] using h
      simp [isAfter, hlt, String.lt_trans hfirst hlt]
  · simp [isAfter, hlt]

/-- The records after the last id of a page are those that follow the page. -/
theorem liveAfter_last (records : Records) (after : Option String) (size : Nat)
    (last : String × StoredRecord)
    (h : ((records.liveAfter after).take size).getLast? = some last) :
    records.liveAfter (some last.1) = (records.liveAfter after).drop size := by
  obtain ⟨before, hpage⟩ := List.getLast?_eq_some_iff.mp h
  have hmem : last ∈ (records.liveAfter after).take size :=
    hpage ▸ List.mem_append_right before List.mem_cons_self
  have hlast : isAfter after last.1 = true := by
    have := (List.mem_filter.mp (List.mem_of_mem_take hmem)).2
    simp_all
  have hasc := records.ascending_liveAfter after
  rw [Keyed.Ascending, ← List.take_append_drop size (records.liveAfter after),
    List.pairwise_append] at hasc
  obtain ⟨htake, -, hcross⟩ := hasc
  have hpage_none : ((records.liveAfter after).take size).filter
      (fun entry => decide (last.1 < entry.1)) = [] := by
    rw [List.filter_eq_nil_iff]
    intro entry hentry
    rw [hpage, List.pairwise_append] at htake
    rw [hpage] at hentry
    have hnot : ¬ last.1 < entry.1 := by
      rcases List.mem_append.mp hentry with hin | hin
      · exact String.lt_asymm (htake.2.2 entry hin last List.mem_cons_self)
      · rw [List.mem_singleton.mp hin]
        exact String.lt_irrefl _
    simpa using hnot
  have hrest_all : ((records.liveAfter after).drop size).filter
      (fun entry => decide (last.1 < entry.1)) = (records.liveAfter after).drop size := by
    rw [List.filter_eq_self]
    intro entry hentry
    simpa using hcross last hmem entry hentry
  rw [records.liveAfter_of_isAfter hlast]
  calc (records.liveAfter after).filter (fun entry => decide (last.1 < entry.1))
      = ((records.liveAfter after).take size ++ (records.liveAfter after).drop size).filter
          (fun entry => decide (last.1 < entry.1)) := by rw [List.take_append_drop]
    _ = (records.liveAfter after).drop size := by
        rw [List.filter_append, hpage_none, hrest_all, List.nil_append]

end Records

/-! ## The query of a page

A connection prepares the query of a page once. It learns that a table is missing only
when it runs a statement, so until then it still prepares a query on that table, and the
query fails when its rows are read. -/

/-- What a connection makes of the query of a page. -/
inductive PageQuery
  /-- It has been prepared. -/
  | prepared
  /-- It would be prepared, for all that the connection knows. -/
  | accepted
  /-- It would not be prepared, because its table is known to be missing. -/
  | refused
deriving DecidableEq, Repr

namespace PageQuery

/-- What a connection knows after another statement. -/
def afterStatement (db : Database) : PageQuery → PageQuery
  | .prepared => .prepared
  | .accepted | .refused => if db.features.isSome then .accepted else .refused

/-- What a connection knows after a page has been asked for. -/
def afterPage (db : Database) (query : PageQuery) : PageQuery :=
  if db.features.isNone ∧ query = .refused then .refused else .prepared

/-- The statement that fails when the table is missing. -/
def failure : PageQuery → StoreError
  | .prepared | .accepted => .statement "read row"
  | .refused => .statement "prepare page query"

end PageQuery

/-- A database as a connection sees it. -/
structure DatabaseView where
  database : Database := {}
  pageQuery : PageQuery := .accepted

/-! ## Reading pages -/

/-- A read of the live rows of a collection. -/
structure PagedRows where
  collection : String
  pageSize : Nat
  /-- Rows of the last page that have not been read. -/
  buffered : List Parts := []
  /-- The last id of the last page. -/
  lastId : Option String := none
  /-- Whether the last page has been fetched. -/
  drained : Bool := false
  /-- Whether a page has been asked for. -/
  asked : Bool := false

namespace PagedRows

/-- A read from the beginning. A page has at least one row. -/
def ofCollection (collection : String) (fetchSize : Nat) : PagedRows :=
  { collection, pageSize := max fetchSize 1 }

/-- The row of an entry. The id is the key. -/
def rowOf (entry : String × StoredRecord) : Parts :=
  { entry.2.row with id := some entry.1 }

def fetch (view : DatabaseView) (p : PagedRows) : Except StoreError PagedRows :=
  match view.database.features with
  | none => .error view.pageQuery.failure
  | some features =>
    let page := ((Database.recordsOf features p.collection).liveAfter p.lastId).take p.pageSize
    .ok { p with
      buffered := page.map rowOf
      lastId := (page.getLast?.map Prod.fst).or p.lastId
      drained := decide (page.length < p.pageSize) }

/-- Note that a page is asked for. -/
def ask (p : PagedRows) : PagedRows := { p with asked := true }

/-- Take the next row off the buffer. -/
def pop (p : PagedRows) : Option Parts × PagedRows :=
  match p.buffered with
  | [] => (none, p)
  | row :: rest => (some row, { p with buffered := rest })

/-- Load the next row, from a new page if need be. -/
def load (view : DatabaseView) (p : PagedRows) :
    Except StoreError (Option Parts) × PagedRows :=
  if p.buffered.isEmpty && !p.drained then
    match p.ask.fetch view with
    | .error failure => (.error failure, p.ask)
    | .ok p => (.ok p.pop.1, p.pop.2)
  else (.ok p.pop.1, p.pop.2)

/-- Forget the buffer and fetch nothing more. -/
def close (p : PagedRows) : PagedRows := { p with buffered := [], drained := true }

/-- The rows that are still to come. -/
def remaining (view : DatabaseView) (p : PagedRows) : Nat :=
  p.buffered.length +
    if p.drained then 0
    else
      match view.database.features with
      | none => 0
      | some features => ((Database.recordsOf features p.collection).liveAfter p.lastId).length

theorem remaining_pop (view : DatabaseView) (p : PagedRows) (parts : Parts)
    (h : p.pop.1 = some parts) : p.pop.2.remaining view < p.remaining view := by
  unfold pop at h ⊢
  split at h
  · cases h
  · next row rest hbuffered => simp [remaining, hbuffered]

theorem remaining_fetch (view : DatabaseView) (p fetched : PagedRows)
    (hbuffered : p.buffered = []) (hdrained : p.drained = false)
    (h : p.fetch view = .ok fetched) : fetched.remaining view ≤ p.remaining view := by
  unfold fetch at h
  split at h
  · cases h
  · next features hfeatures =>
    obtain rfl := Except.ok.inj h
    generalize hrecords : Database.recordsOf features p.collection = records
    simp only [remaining, hfeatures, hrecords, hbuffered, hdrained, List.length_map,
      List.length_take, List.length_nil, Bool.false_eq_true, if_false, Nat.zero_add]
    cases hlast : ((records.liveAfter p.lastId).take p.pageSize).getLast? with
    | none =>
      simp only [Option.map_none, Option.none_or]
      rw [List.getLast?_eq_none_iff] at hlast
      have hempty := congrArg List.length hlast
      rw [List.length_take, List.length_nil] at hempty
      split <;> omega
    | some last =>
      simp only [Option.map_some, Option.some_or,
        records.liveAfter_last p.lastId p.pageSize last hlast, List.length_drop]
      split <;> omega

instance : RowSource DatabaseView PagedRows where
  load := load
  close := close
  remaining := remaining
  remaining_load view p parts h := by
    unfold load at h ⊢
    split at h
    · next hask =>
      rw [if_pos hask]
      obtain ⟨hempty, hdrained⟩ := Bool.and_eq_true_iff.mp hask
      have hbuffered : p.ask.buffered = [] := List.isEmpty_iff.mp hempty
      have hnext : p.ask.drained = false := by simpa [ask] using hdrained
      cases hfetch : p.ask.fetch view with
      | error failure => simp [hfetch] at h
      | ok fetched =>
        simp only [hfetch] at h
        exact Nat.lt_of_lt_of_le (fetched.remaining_pop view parts (Except.ok.inj h))
          (p.ask.remaining_fetch view fetched hbuffered hnext hfetch)
    · next hkept =>
      rw [if_neg hkept]
      exact p.remaining_pop view parts (Except.ok.inj h)

end PagedRows

end FeatureStore
