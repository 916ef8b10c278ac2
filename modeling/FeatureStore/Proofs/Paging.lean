-- SUMMARY: Reading a collection in pages while it changes: no row comes twice, and none is skipped that stays live.
import FeatureStore.Proofs.Ahead
import FeatureStore.Store.DatabaseStore
import Mathlib.Data.List.Nodup

/-!
# Reading pages of a changing collection

A read that is left alone supplies the live rows of its collection in the order of their
ids. Where other stores write in between, the database has a history: the moments that
lie between the opening of the cursor and the report of its end. The rows that have been
fetched are then described by four facts. Their ids ascend; none of them comes after
the last id of the last page; each was live at some moment; and no id up to that last one
is missing that has been live at every moment. Loading a row keeps these facts, whatever
has happened to the database since the last load.
-/

namespace FeatureStore

/-- The records of a collection. There are none where the table is missing. -/
def Database.records (db : Database) (collection : String) : Records :=
  (db.features.map (fun features => recordsOf features collection)).getD .empty

/-- A page and what comes after its last id are all that there is to come. A page that is
    not full is the last. -/
theorem Records.page_append (records : Records) (after : Option String) {size : Nat}
    (hsize : 0 < size) :
    let page := (records.liveAfter after).take size
    page ++ (if page.length < size then []
        else records.liveAfter ((page.getLast?.map Prod.fst).or after))
      = records.liveAfter after := by
  intro page
  have hlength : page.length = min size (records.liveAfter after).length := List.length_take
  split
  · next hshort =>
    rw [List.append_nil]
    exact List.take_of_length_le (by omega)
  · next hfull =>
    cases hlast : page.getLast? with
    | none =>
      have hempty : page = [] := List.getLast?_eq_none_iff.mp hlast
      rw [hempty, List.length_nil] at hfull
      omega
    | some last =>
      have hafter : records.liveAfter (some last.1) = (records.liveAfter after).drop size :=
        records.liveAfter_last after size last hlast
      simp only [Option.map_some, Option.some_or, hafter]
      exact List.take_append_drop size (records.liveAfter after)

namespace PagedRows

/-! ## A read that is left alone -/

/-- The page that is fetched next, as entries of the collection. -/
def page (db : Database) (p : PagedRows) : List (String × StoredRecord) :=
  ((db.records p.collection).liveAfter p.lastId).take p.pageSize

/-- The read once a page has been fetched. -/
def withPage (p : PagedRows) (page : List (String × StoredRecord)) : PagedRows :=
  { p with
    buffered := page.map rowOf
    lastId := (page.getLast?.map Prod.fst).or p.lastId
    drained := decide (page.length < p.pageSize) }

theorem fetch_of_features {view : DatabaseView} (h : view.database.features.isSome)
    (p : PagedRows) : p.fetch view = .ok (p.withPage (p.page view.database)) := by
  obtain ⟨features, hfeatures⟩ := Option.isSome_iff_exists.mp h
  simp [fetch, page, withPage, Database.records, hfeatures]

/-- A load takes the first row off the buffer, which is first filled if need be. -/
theorem load_of_buffered {view : DatabaseView} {p : PagedRows} {row : Parts} {rest : List Parts}
    (h : p.buffered = row :: rest) :
    p.load view = (.ok (some row), { p with buffered := rest }) := by
  simp [load, pop, h]

theorem load_of_drained {view : DatabaseView} {p : PagedRows} (hbuffered : p.buffered = [])
    (hdrained : p.drained = true) : p.load view = (.ok none, p) := by
  simp [load, pop, hbuffered, hdrained]

theorem load_of_fetched {view : DatabaseView} {p fetched : PagedRows} (hbuffered : p.buffered = [])
    (hdrained : p.drained = false) (h : p.ask.fetch view = .ok fetched) :
    p.load view = (.ok fetched.pop.1, fetched.pop.2) := by
  simp [load, hbuffered, hdrained, h]

theorem load_of_failed {view : DatabaseView} {p : PagedRows} {failure : StoreError}
    (hbuffered : p.buffered = []) (hdrained : p.drained = false)
    (h : p.ask.fetch view = .error failure) : p.load view = (.error failure, p.ask) := by
  simp [load, hbuffered, hdrained, h]

/-- The rows that are still to come as long as the database stays as it is. -/
def ahead (db : Database) (p : PagedRows) : List Parts :=
  p.buffered ++
    if p.drained then [] else ((db.records p.collection).liveAfter p.lastId).map rowOf

/-- Fetching a page changes nothing about the rows to come. -/
theorem ahead_withPage {db : Database} {p : PagedRows} (hbuffered : p.buffered = [])
    (hdrained : p.drained = false) (hsize : 0 < p.pageSize) :
    (p.withPage (p.page db)).ahead db = p.ahead db := by
  have hpage : p.page db ++ (if (p.page db).length < p.pageSize then []
        else (db.records p.collection).liveAfter (((p.page db).getLast?.map Prod.fst).or p.lastId))
      = (db.records p.collection).liveAfter p.lastId :=
    (db.records p.collection).page_append p.lastId hsize
  have hahead : p.ahead db = ((db.records p.collection).liveAfter p.lastId).map rowOf := by
    simp [ahead, hbuffered, hdrained]
  rw [hahead, ← hpage, List.map_append, ahead]
  by_cases hshort : (p.page db).length < p.pageSize
  · have hlast : (p.withPage (p.page db)).drained = true := decide_eq_true hshort
    rw [if_pos hlast, if_pos hshort]
    rfl
  · have hmore : (p.withPage (p.page db)).drained = false := decide_eq_false hshort
    rw [hmore, if_neg hshort]
    rfl

/-- While the database stays as it is, a load takes the first of the rows to come. -/
theorem load_ahead {view : DatabaseView} (hfeatures : view.database.features.isSome)
    {p : PagedRows} (hsize : 0 < p.pageSize) :
    ∃ loaded, p.load view = (.ok (p.ahead view.database).head?, loaded) ∧
      loaded.ahead view.database = (p.ahead view.database).tail ∧
      loaded.pageSize = p.pageSize := by
  -- A page that ends the read has fewer rows than were asked for, so an empty one does.
  have hpop : ∀ fetched : PagedRows, (fetched.buffered = [] → fetched.drained = true) →
      fetched.pop.1 = (fetched.ahead view.database).head? ∧
        fetched.pop.2.ahead view.database = (fetched.ahead view.database).tail ∧
        fetched.pop.2.pageSize = fetched.pageSize := by
    intro fetched hend
    cases hbuffered : fetched.buffered with
    | nil => simp [pop, hbuffered, ahead, hend hbuffered]
    | cons row rest => simp [pop, hbuffered, ahead]
  cases hbuffered : p.buffered with
  | cons row rest =>
    rw [load_of_buffered hbuffered]
    refine ⟨_, Prod.ext ?_ rfl, ?_, rfl⟩
    · simp [ahead, hbuffered]
    · simp [ahead, hbuffered]
  | nil =>
    cases hdrained : p.drained with
    | true =>
      rw [load_of_drained hbuffered hdrained]
      exact ⟨p, by simp [ahead, hbuffered, hdrained], by simp [ahead, hbuffered, hdrained], rfl⟩
    | false =>
      have hfetch := fetch_of_features hfeatures p.ask
      have hahead : (p.ask.withPage (p.ask.page view.database)).ahead view.database
          = p.ahead view.database := ahead_withPage (p := p.ask) hbuffered hdrained hsize
      obtain ⟨hrow, hrest, hkept⟩ := hpop (p.ask.withPage (p.ask.page view.database)) (by
        intro hempty
        have hnone : p.ask.page view.database = [] := List.map_eq_nil_iff.mp hempty
        have hshort : (p.ask.page view.database).length < p.ask.pageSize := by
          rw [hnone]
          exact hsize
        exact decide_eq_true hshort)
      rw [load_of_fetched hbuffered hdrained hfetch, hrow, hahead]
      exact ⟨_, rfl, hahead ▸ hrest, hkept⟩

/-- While the database stays as it is, a read supplies the rows to come. -/
theorem supplies_ahead {view : DatabaseView} (hfeatures : view.database.features.isSome)
    {p : PagedRows} (hsize : 0 < p.pageSize) : Supplies view (p.ahead view.database) p := by
  generalize hrows : p.ahead view.database = rows
  induction rows generalizing p with
  | nil =>
    obtain ⟨loaded, hload, -, -⟩ := load_ahead hfeatures hsize
    rw [hrows] at hload
    exact congrArg Prod.fst hload
  | cons row rest ih =>
    obtain ⟨loaded, hload, hahead, hkept⟩ := load_ahead hfeatures hsize
    rw [hrows] at hload hahead
    refine ⟨congrArg Prod.fst hload, ?_⟩
    have hloaded : (RowSource.load view p).2 = loaded := congrArg Prod.snd hload
    rw [hloaded]
    exact ih (by omega) hahead

/-- A read from the beginning supplies the live rows of its collection. -/
theorem supplies_ofCollection {view : DatabaseView} (hfeatures : view.database.features.isSome)
    (collection : String) (fetchSize : Nat) :
    Supplies view ((view.database.records collection).live.map rowOf)
      (ofCollection collection fetchSize) := by
  have hsize : 0 < (ofCollection collection fetchSize).pageSize :=
    Nat.lt_of_lt_of_le Nat.zero_lt_one (Nat.le_max_right _ 1)
  have hahead : (ofCollection collection fetchSize).ahead view.database
      = (view.database.records collection).live.map rowOf := by
    simp [ahead, ofCollection]
  exact hahead ▸ supplies_ahead hfeatures hsize

end PagedRows

/-! ## A read that others write around -/

/-- An entry is live in a collection. -/
def Database.Shows (db : Database) (collection : String) (entry : String × StoredRecord) : Prop :=
  entry ∈ (db.records collection).live

/-- An id has a live record at each moment. -/
def StaysLive (collection : String) (moments : List Database) (id : String) : Prop :=
  ∀ moment ∈ moments, ∃ record, moment.Shows collection (id, record)

theorem Records.isAfter_of_not {after : Option String} {a b : String}
    (ha : isAfter after a = false) (hb : isAfter after b = true) : a < b := by
  cases after with
  | none => cases ha
  | some last =>
    have hnot : ¬ last < a := by simpa [isAfter] using ha
    have hlast : last < b := by simpa [isAfter] using hb
    by_cases heq : a = last
    · exact heq ▸ hlast
    · exact String.lt_trans (Keyed.lt_of_not_lt_of_ne hnot heq) hlast

namespace PagedRows

theorem ascending_page (db : Database) (p : PagedRows) : Keyed.Ascending (p.page db) :=
  ((db.records p.collection).ascending_liveAfter p.lastId).sublist (List.take_sublist _ _)

theorem isAfter_of_mem_page {db : Database} {p : PagedRows} {entry : String × StoredRecord}
    (h : entry ∈ p.page db) : Records.isAfter p.lastId entry.1 = true := by
  have hkept := (List.mem_filter.mp (List.mem_of_mem_take h)).2
  exact (Bool.and_eq_true_iff.mp hkept).2

theorem shows_of_mem_page {db : Database} {p : PagedRows} {entry : String × StoredRecord}
    (h : entry ∈ p.page db) : db.Shows p.collection entry := by
  obtain ⟨hmem, hkept⟩ := List.mem_filter.mp (List.mem_of_mem_take h)
  exact List.mem_filter.mpr ⟨hmem, (Bool.and_eq_true_iff.mp hkept).1⟩

/-- An entry that is live and still to come is on the page, if the page is the last or its
    last id has come. -/
theorem mem_page_of_shows {db : Database} {p : PagedRows} (hsize : 0 < p.pageSize) {id : String}
    {record : StoredRecord} (hshows : db.Shows p.collection (id, record))
    (hid : Records.isAfter p.lastId id = true)
    (hend : (p.withPage (p.page db)).drained = true ∨
      Records.isAfter (p.withPage (p.page db)).lastId id = false) :
    (id, record) ∈ p.page db := by
  obtain ⟨hmem, hlive⟩ := List.mem_filter.mp hshows
  have hahead : (id, record) ∈ (db.records p.collection).liveAfter p.lastId :=
    List.mem_filter.mpr ⟨hmem, Bool.and_eq_true_iff.mpr ⟨hlive, hid⟩⟩
  have hsplit : p.page db ++ (if (p.page db).length < p.pageSize then []
        else (db.records p.collection).liveAfter (p.withPage (p.page db)).lastId)
      = (db.records p.collection).liveAfter p.lastId :=
    (db.records p.collection).page_append p.lastId hsize
  rw [← hsplit] at hahead
  refine (List.mem_append.mp hahead).resolve_right fun hlater => ?_
  split at hlater
  · cases hlater
  · next hfull =>
    have hafter := (Bool.and_eq_true_iff.mp (List.mem_filter.mp hlater).2).2
    rcases hend with hdrained | hbefore
    · exact hfull (of_decide_eq_true hdrained)
    · rw [hbefore] at hafter
      cases hafter

/-- Nothing up to a page comes after its last id. -/
theorem not_isAfter_withPage {db : Database} {p : PagedRows}
    {taken : List (String × StoredRecord)} (hascending : Keyed.Ascending (taken ++ p.page db))
    (hbounded : ∀ entry ∈ taken, Records.isAfter p.lastId entry.1 = false) :
    ∀ entry ∈ taken ++ p.page db,
      Records.isAfter (p.withPage (p.page db)).lastId entry.1 = false := by
  intro entry hentry
  cases hlast : (p.page db).getLast? with
  | none =>
    have hempty : p.page db = [] := List.getLast?_eq_none_iff.mp hlast
    rw [hempty, List.append_nil] at hentry
    simpa [withPage, hlast] using hbounded entry hentry
  | some last =>
    obtain ⟨before, hbefore⟩ := List.getLast?_eq_some_iff.mp hlast
    rw [hbefore, ← List.append_assoc] at hascending hentry
    have hnot : ¬ last.1 < entry.1 := by
      rcases List.mem_append.mp hentry with hentry | hentry
      · exact String.lt_asymm
          ((List.pairwise_append.mp hascending).2.2 entry hentry last List.mem_cons_self)
      · rw [List.mem_singleton.mp hentry]
        exact String.lt_irrefl _
    simpa [withPage, hlast, Records.isAfter] using hnot

/-- What the rows that a read has fetched are, when the database has gone through the
    given moments: `taken` have been supplied, and `waiting` are in the buffer. -/
structure Covers (collection : String) (moments : List Database) (p : PagedRows)
    (taken waiting : List (String × StoredRecord)) : Prop where
  reads : p.collection = collection
  size : 0 < p.pageSize
  buffered : p.buffered = waiting.map rowOf
  ascending : Keyed.Ascending (taken ++ waiting)
  live : ∀ entry ∈ taken ++ waiting, ∃ moment ∈ moments, moment.Shows collection entry
  bounded : ∀ entry ∈ taken ++ waiting, Records.isAfter p.lastId entry.1 = false
  complete : ∀ id, StaysLive collection moments id →
    p.drained = true ∨ Records.isAfter p.lastId id = false →
      id ∈ (taken ++ waiting).map Prod.fst

namespace Covers

variable {collection : String} {moments : List Database} {p : PagedRows}
  {taken waiting : List (String × StoredRecord)}

theorem ofCollection (collection : String) (fetchSize : Nat) (moments : List Database) :
    (PagedRows.ofCollection collection fetchSize).Covers collection moments [] [] where
  reads := rfl
  size := Nat.lt_of_lt_of_le Nat.zero_lt_one (Nat.le_max_right fetchSize 1)
  buffered := rfl
  ascending := List.Pairwise.nil
  live _ hmem := by cases hmem
  bounded _ hmem := by cases hmem
  complete _ _ hend := by rcases hend with h | h <;> cases h

/-- Whatever the database goes through, what has been fetched stays what it is. -/
theorem later (h : p.Covers collection moments taken waiting) (moment : Database) :
    p.Covers collection (moments ++ [moment]) taken waiting :=
  { h with
    live := fun entry hmem => by
      obtain ⟨earlier, hearlier, hshows⟩ := h.live entry hmem
      exact ⟨earlier, List.mem_append_left _ hearlier, hshows⟩
    complete := fun id hstays =>
      h.complete id (fun earlier hearlier => hstays earlier (List.mem_append_left _ hearlier)) }

/-- Fetching a page from a moment of the history. -/
theorem withPage (h : p.Covers collection moments taken []) {db : Database} (hdb : db ∈ moments) :
    (p.withPage (p.page db)).Covers collection moments taken (p.page db) := by
  obtain ⟨rfl, hsize, -, hascending, hlive, hbounded, hcomplete⟩ := h
  simp only [List.append_nil] at hascending hlive hbounded hcomplete
  have hall : Keyed.Ascending (taken ++ p.page db) := by
    refine List.pairwise_append.mpr ⟨hascending, p.ascending_page db, ?_⟩
    intro entry hentry other hother
    exact Records.isAfter_of_not (hbounded entry hentry) (isAfter_of_mem_page hother)
  refine ⟨rfl, hsize, rfl, hall, ?_, not_isAfter_withPage hall hbounded, ?_⟩
  · intro entry hentry
    rcases List.mem_append.mp hentry with hentry | hentry
    · exact hlive entry hentry
    · exact ⟨db, hdb, shows_of_mem_page hentry⟩
  · intro id hstays hend
    rw [List.map_append, List.mem_append]
    cases hid : Records.isAfter p.lastId id with
    | false => exact .inl (hcomplete id hstays (.inr hid))
    | true =>
      obtain ⟨record, hshows⟩ := hstays db hdb
      have hpage : (id, record) ∈ p.page db := mem_page_of_shows hsize hshows hid hend
      exact .inr (List.mem_map_of_mem hpage)

theorem pop {entry : String × StoredRecord}
    (h : p.Covers collection moments taken (entry :: waiting)) :
    { p with buffered := waiting.map rowOf }.Covers collection moments (taken ++ [entry])
      waiting := by
  obtain ⟨hcollection, hsize, -, hascending, hlive, hbounded, hcomplete⟩ := h
  have hsame : taken ++ [entry] ++ waiting = taken ++ entry :: waiting := by simp
  exact ⟨hcollection, hsize, rfl, hsame ▸ hascending, hsame ▸ hlive, hsame ▸ hbounded,
    hsame ▸ hcomplete⟩

theorem ask (h : p.Covers collection moments taken waiting) :
    p.ask.Covers collection moments taken waiting :=
  ⟨h.reads, h.size, h.buffered, h.ascending, h.live, h.bounded, h.complete⟩

/-- A load fails, supplies the row of an entry, or finds the end, where nothing waits and
    nothing more will be fetched. What has been fetched is described as before. -/
theorem load (h : p.Covers collection moments taken waiting) {view : DatabaseView}
    (hview : p.drained = false → view.database ∈ moments) :
    (∃ failure loaded, p.load view = (.error failure, loaded) ∧
      loaded.Covers collection moments taken []) ∨
    (∃ entry rest loaded, p.load view = (.ok (some (rowOf entry)), loaded) ∧
      loaded.Covers collection moments (taken ++ [entry]) rest) ∨
    (∃ loaded, p.load view = (.ok none, loaded) ∧ loaded.Covers collection moments taken [] ∧
      loaded.drained = true) := by
  cases waiting with
  | cons entry rest =>
    exact .inr (.inl ⟨entry, rest, _, load_of_buffered h.buffered, h.pop⟩)
  | nil =>
    have hbuffered : p.buffered = [] := h.buffered
    cases hdrained : p.drained with
    | true => exact .inr (.inr ⟨p, load_of_drained hbuffered hdrained, h, hdrained⟩)
    | false =>
      cases hfeatures : view.database.features with
      | none =>
        have hfetch : p.ask.fetch view = .error view.pageQuery.failure := by
          simp [fetch, hfeatures]
        exact .inl ⟨_, _, load_of_failed hbuffered hdrained hfetch, h.ask⟩
      | some features =>
        have hfetch : p.ask.fetch view = .ok (p.ask.withPage (p.ask.page view.database)) :=
          fetch_of_features (by simp [hfeatures]) p.ask
        -- The page belongs to the moment of this load. The pages before it were of other moments.
        have hcovers := h.ask.withPage (hview hdrained)
        rw [load_of_fetched hbuffered hdrained hfetch]
        cases hpage : p.ask.page view.database with
        | nil =>
          rw [hpage] at hcovers
          have hlast : (p.ask.withPage []).drained = true := decide_eq_true h.size
          exact .inr (.inr ⟨_, rfl, hcovers, hlast⟩)
        | cons entry rest =>
          rw [hpage] at hcovers
          exact .inr (.inl ⟨entry, rest, _, rfl, hcovers.pop⟩)

end Covers

end PagedRows

/-! ## Cursors -/

variable {fmt : Format}

/-- A cursor at work on a database that others change. -/
structure ReadRun (fmt : Format) where
  view : DatabaseView
  cursor : StreamingCursor PagedRows fmt
  /-- The codecs that the cursor has moved onto, as they were on arrival. -/
  returned : List (Codec fmt) := []
  /-- The database from the opening of the cursor on, until it has reported its end. -/
  moments : List Database
  /-- Whether the cursor has reported its end. -/
  ended : Bool := false

/-- A step of the cursor, or something that happens to the database in between. -/
inductive ReadStep (fmt : Format)
  | hasNext
  | next
  | tryNext
  /-- The codec of the current row is used and changed. -/
  | edit (change : Codec fmt → Codec fmt)
  | close
  /-- A store executes a batch. -/
  | batch {written : Format} (store : DatabaseStore) (request : WriteRequest written)
  /-- Someone else changes the database, in whatever way. -/
  | disturb (change : Database → Database)
  /-- The connection of the cursor learns something about its page query. -/
  | learn (query : PageQuery)

namespace ReadRun

def opened (view : DatabaseView) (rows : PagedRows) : ReadRun fmt :=
  { view, cursor := .ofSource rows, moments := [view.database] }

def arrive (r : ReadRun fmt) (cursor : StreamingCursor PagedRows fmt) : ReadRun fmt :=
  { r with cursor, returned := r.returned ++ [cursor.current.codec] }

def finish (r : ReadRun fmt) (cursor : StreamingCursor PagedRows fmt) : ReadRun fmt :=
  { r with cursor, ended := true }

def changed (r : ReadRun fmt) (database : Database) : ReadRun fmt :=
  { r with
    view := { r.view with database }
    moments := if r.ended then r.moments else r.moments ++ [database] }

def step (r : ReadRun fmt) : ReadStep fmt → ReadRun fmt
  | .hasNext =>
    match r.cursor.hasNext r.view with
    | (.ok false, cursor) => r.finish cursor
    | (_, cursor) => { r with cursor }
  | .next =>
    match r.cursor.next r.view with
    | (.ok (), cursor) => r.arrive cursor
    | (.error .exhausted, cursor) => r.finish cursor
    | (.error _, cursor) => { r with cursor }
  | .tryNext =>
    match r.cursor.tryNext r.view with
    | (.ok true, cursor) => r.arrive cursor
    | (.ok false, cursor) => r.finish cursor
    | (.error _, cursor) => { r with cursor }
  | .edit change =>
    { r with cursor := (r.cursor.onCurrent (fun codec => ((), change codec))).2 }
  | .close => { r with cursor := r.cursor.close }
  | .batch store request =>
    let done : WriteOutcome PagedRows _ × Database := store.execute request r.view.database
    r.changed done.2
  | .disturb change => r.changed (change r.view.database)
  | .learn pageQuery => { r with view := { r.view with pageQuery } }

def run (r : ReadRun fmt) (steps : List (ReadStep fmt)) : ReadRun fmt := steps.foldl step r

/-- The codec of a row when the cursor arrives at its entry. -/
def codecOf (entry : String × StoredRecord) : Codec fmt := .arrived (PagedRows.rowOf entry)

/-! ### What holds of an open cursor -/

/-- The row that has been looked up and not moved onto. -/
def pending (r : ReadRun fmt) : List (Codec fmt) :=
  if r.cursor.lookaheadLoaded && r.cursor.lookahead.valid then [r.cursor.lookahead.codec] else []

/-- The cursor is open, and the rows that its source has supplied are those that it has
    moved onto and the one that it keeps. -/
structure Reading (collection : String) (r : ReadRun fmt)
    (taken waiting : List (String × StoredRecord)) : Prop where
  opened : r.cursor.handle.released = false
  covers : r.cursor.handle.source.Covers collection r.moments taken waiting
  rows : r.returned ++ r.pending = taken.map codecOf
  present : r.ended = false → r.view.database ∈ r.moments
  /-- A lookup without a row, or a step behind the last row, has been reported. -/
  reported : r.cursor.lookaheadLoaded = true ∧ r.cursor.lookahead.valid = false ∨
    r.cursor.exhausted = true → r.ended = true
  finished : r.ended = true →
    r.pending = [] ∧ waiting = [] ∧ r.cursor.handle.source.drained = true

namespace Reading

variable {collection : String} {r : ReadRun fmt} {taken waiting : List (String × StoredRecord)}

/-- After its end the source has nothing more to load. -/
theorem load_of_ended (h : r.Reading collection taken waiting) (hended : r.ended = true) :
    r.cursor.handle.source.load r.view = (.ok none, r.cursor.handle.source) := by
  obtain ⟨-, rfl, hdrained⟩ := h.finished hended
  exact PagedRows.load_of_drained h.covers.buffered hdrained

/-- A lookup fails, keeps the next row or finds the end. -/
theorem lookAhead (h : r.Reading collection taken waiting)
    (hloaded : r.cursor.lookaheadLoaded = false) (hexhausted : r.cursor.exhausted = false) :
    (∃ failure cursor, r.cursor.lookAhead r.view = (.error (.store failure), cursor) ∧
      { r with cursor }.Reading collection taken []) ∨
    (∃ entry rest cursor, r.cursor.lookAhead r.view = (.ok true, cursor) ∧
      cursor.lookaheadLoaded = true ∧ cursor.lookahead.valid = true ∧
      { r with cursor }.Reading collection (taken ++ [entry]) rest) ∨
    (∃ cursor, r.cursor.lookAhead r.view = (.ok false, cursor) ∧
      (r.finish cursor).Reading collection taken []) := by
  have hview : r.cursor.handle.source.drained = false → r.view.database ∈ r.moments := by
    intro hdrained
    refine h.present (Bool.eq_false_iff.mpr fun hended => ?_)
    rw [(h.finished hended).2.2] at hdrained
    cases hdrained
  have hpending : r.pending = [] := by simp [pending, hloaded]
  have hrows : r.returned = taken.map codecOf := by
    rw [← h.rows, hpending, List.append_nil]
  rcases h.covers.load hview with
    ⟨failure, source, hload, hcovers⟩ | ⟨entry, rest, source, hload, hcovers⟩
      | ⟨source, hload, hcovers, hdrained⟩
  · have hgoing : r.ended = true → False := by
      intro hended
      rw [h.load_of_ended hended] at hload
      cases hload
    refine .inl ⟨failure, _, StreamingCursor.lookAhead_of_failure hload, ?_⟩
    exact ⟨h.opened, hcovers, by simpa [pending, hloaded] using hrows, h.present,
      by simp [hloaded, hexhausted], fun hended => (hgoing hended).elim⟩
  · have hgoing : r.ended = true → False := by
      intro hended
      rw [h.load_of_ended hended] at hload
      cases hload
    refine .inr (.inl ⟨entry, rest, _, StreamingCursor.lookAhead_of_row hload, rfl, rfl, ?_⟩)
    refine ⟨h.opened, hcovers, ?_, h.present, ?_, fun hended => (hgoing hended).elim⟩
    · simp [pending, hrows, Row.ofParts, codecOf, Codec.arrived]
    · simp [Row.ofParts, hexhausted]
  · refine .inr (.inr ⟨_, StreamingCursor.lookAhead_of_end hload, ?_⟩)
    refine ⟨h.opened, hcovers, ?_, ?_, fun _ => rfl, fun _ => ?_⟩
    · simpa [pending, finish] using hrows
    · intro hgoing
      cases hgoing
    · exact ⟨by simp [pending, finish], rfl, hdrained⟩

/-- Asking for the next row fails, keeps it or finds the end. -/
theorem hasNext (h : r.Reading collection taken waiting) :
    (∃ failure cursor, r.cursor.hasNext r.view = (.error (.store failure), cursor) ∧
      ∃ taken waiting, { r with cursor }.Reading collection taken waiting) ∨
    (∃ cursor, r.cursor.hasNext r.view = (.ok true, cursor) ∧
      cursor.lookaheadLoaded = true ∧ cursor.lookahead.valid = true ∧
      ∃ taken waiting, { r with cursor }.Reading collection taken waiting) ∨
    (∃ cursor, r.cursor.hasNext r.view = (.ok false, cursor) ∧
      ∃ taken waiting, (r.finish cursor).Reading collection taken waiting) := by
  have hend : r.ended = true → (r.finish r.cursor).Reading collection taken waiting := by
    intro hended
    have hsame : r.finish r.cursor = r := by simp only [finish, ← hended]
    rw [hsame]
    exact h
  cases hloaded : r.cursor.lookaheadLoaded with
  | true =>
    have hnext := StreamingCursor.hasNext_of_loaded r.view h.opened hloaded
    cases hvalid : r.cursor.lookahead.valid with
    | true =>
      rw [hvalid] at hnext
      exact .inr (.inl ⟨_, hnext, hloaded, hvalid, taken, waiting, h⟩)
    | false =>
      rw [hvalid] at hnext
      exact .inr (.inr ⟨_, hnext, taken, waiting, hend (h.reported (.inl ⟨hloaded, hvalid⟩))⟩)
  | false =>
    cases hexhausted : r.cursor.exhausted with
    | true =>
      have hnext := StreamingCursor.hasNext_of_exhausted r.view h.opened hloaded hexhausted
      exact .inr (.inr ⟨_, hnext, taken, waiting, hend (h.reported (.inr hexhausted))⟩)
    | false =>
      rw [StreamingCursor.hasNext_of_unread r.view h.opened hloaded hexhausted]
      rcases h.lookAhead hloaded hexhausted with
        ⟨failure, cursor, hlook, hreading⟩
          | ⟨entry, rest, cursor, hlook, hkept, hvalid, hreading⟩ | ⟨cursor, hlook, hreading⟩
      · exact .inl ⟨failure, cursor, hlook, _, _, hreading⟩
      · exact .inr (.inl ⟨cursor, hlook, hkept, hvalid, _, _, hreading⟩)
      · exact .inr (.inr ⟨cursor, hlook, _, _, hreading⟩)

/-- Moving onto the kept row. -/
theorem advance (h : r.Reading collection taken waiting)
    (hloaded : r.cursor.lookaheadLoaded = true) (hvalid : r.cursor.lookahead.valid = true) :
    (r.arrive r.cursor.advance).Reading collection taken waiting := by
  have hpending : r.pending = [r.cursor.lookahead.codec] := by simp [pending, hloaded, hvalid]
  have hgoing : r.ended = true → False := by
    intro hended
    have hnone := (h.finished hended).1
    rw [hpending] at hnone
    cases hnone
  refine ⟨h.opened, h.covers, ?_, h.present, ?_, fun hended => (hgoing hended).elim⟩
  · rw [← h.rows, hpending]
    simp [pending, arrive, StreamingCursor.advance]
  · rintro (⟨hkept, -⟩ | hexhausted)
    · cases hkept
    · exact h.reported (.inr hexhausted)

/-- Stepping behind the last row. -/
theorem finish (h : r.Reading collection taken waiting) (hended : r.ended = true) :
    { r with cursor := r.cursor.finish }.Reading collection taken waiting := by
  unfold StreamingCursor.finish
  split
  · exact h
  · exact ⟨h.opened, h.covers, h.rows, h.present, fun _ => hended, h.finished⟩

theorem next (h : r.Reading collection taken waiting) :
    ∃ taken waiting, (r.step .next).Reading collection taken waiting := by
  unfold step
  rcases h.hasNext with ⟨failure, cursor, hnext, _, _, hreading⟩
      | ⟨cursor, hnext, hloaded, hvalid, _, _, hreading⟩ | ⟨cursor, hnext, _, _, hreading⟩
  · simp only [StreamingCursor.next, hnext]
    exact ⟨_, _, hreading⟩
  · simp only [StreamingCursor.next, hnext]
    exact ⟨_, _, hreading.advance hloaded hvalid⟩
  · simp only [StreamingCursor.next, hnext]
    exact ⟨_, _, hreading.finish rfl⟩

theorem tryNext (h : r.Reading collection taken waiting) :
    ∃ taken waiting, (r.step .tryNext).Reading collection taken waiting := by
  unfold step
  rcases h.hasNext with ⟨failure, cursor, hnext, _, _, hreading⟩
      | ⟨cursor, hnext, hloaded, hvalid, _, _, hreading⟩ | ⟨cursor, hnext, _, _, hreading⟩
  · simp only [StreamingCursor.tryNext, hnext]
    exact ⟨_, _, hreading⟩
  · simp only [StreamingCursor.tryNext, hnext]
    exact ⟨_, _, hreading.advance hloaded hvalid⟩
  · simp only [StreamingCursor.tryNext, hnext]
    exact ⟨_, _, hreading⟩

theorem edit (h : r.Reading collection taken waiting) (change : Codec fmt → Codec fmt) :
    (r.step (.edit change)).Reading collection taken waiting := by
  simp only [step, StreamingCursor.onCurrent]
  cases r.cursor.currentCodec with
  | ok codec => exact ⟨h.opened, h.covers, h.rows, h.present, h.reported, h.finished⟩
  | error e => exact h

theorem changed (h : r.Reading collection taken waiting) (database : Database) :
    (r.changed database).Reading collection taken waiting := by
  cases hended : r.ended with
  | true =>
    refine ⟨h.opened, ?_, h.rows, fun hgoing => ?_, h.reported, h.finished⟩
    · simpa [ReadRun.changed, hended] using h.covers
    · have hstill : r.ended = false := hgoing
      rw [hended] at hstill
      cases hstill
  | false =>
    refine ⟨h.opened, ?_, h.rows, fun _ => ?_, h.reported, h.finished⟩
    · simpa [ReadRun.changed, hended] using h.covers.later database
    · simp [ReadRun.changed, hended]

end Reading

/-! ### What holds of any cursor -/

/-- What the rows that the cursor has moved onto are. The last fact says that none has been
    skipped: an id that has always been live is missing only behind them, as long as the
    cursor has not reported its end. -/
structure Sound (collection : String) (r : ReadRun fmt) (entries : List (String × StoredRecord)) :
    Prop where
  returned : r.returned = entries.map codecOf
  ascending : Keyed.Ascending entries
  live : ∀ entry ∈ entries, ∃ moment ∈ r.moments, moment.Shows collection entry
  gapless : ∀ id, StaysLive collection r.moments id →
    (∃ entry ∈ entries, id < entry.1) ∨ r.ended = true → id ∈ entries.map Prod.fst

theorem Reading.sound {collection : String} {r : ReadRun fmt}
    {taken waiting : List (String × StoredRecord)} (h : r.Reading collection taken waiting) :
    ∃ entries, r.Sound collection entries := by
  -- The rows are those taken from the pages, in their order. The cursor may keep one that it
  -- has not returned.
  let entries := taken.take r.returned.length
  let others := taken.drop r.returned.length ++ waiting
  have hreturned : r.returned = entries.map codecOf := by
    have htake := congrArg (List.take r.returned.length) h.rows
    rw [List.take_left, ← List.map_take] at htake
    exact htake
  have hall : taken ++ waiting = entries ++ others := by
    rw [← List.append_assoc, List.take_append_drop]
  have hascending := h.covers.ascending
  rw [hall, Keyed.Ascending, List.pairwise_append] at hascending
  obtain ⟨hentries, -, hcross⟩ := hascending
  refine ⟨entries, hreturned, hentries, ?_, ?_⟩
  · intro entry hmem
    exact h.covers.live entry (hall ▸ List.mem_append_left _ hmem)
  · intro id hstays hwhere
    have hcomplete := h.covers.complete id hstays
    rw [hall, List.map_append, List.mem_append] at hcomplete
    rcases hwhere with ⟨entry, hmem, hlt⟩ | hended
    · -- An id before a returned row is before the last one fetched, so that its page was read.
      have hbounded := h.covers.bounded entry (hall ▸ List.mem_append_left _ hmem)
      have hid : Records.isAfter r.cursor.handle.source.lastId id = false := by
        refine Bool.eq_false_iff.mpr fun hafter => ?_
        exact String.lt_asymm hlt (Records.isAfter_of_not hbounded hafter)
      refine (hcomplete (.inr hid)).resolve_right fun hothers => ?_
      obtain ⟨other, hother, rfl⟩ := List.mem_map.mp hothers
      exact String.lt_asymm hlt (hcross entry hmem other hother)
    · obtain ⟨hpending, rfl, hdrained⟩ := h.finished hended
      have hlength := congrArg List.length h.rows
      rw [hpending, List.append_nil, List.length_map] at hlength
      have hnone : others = [] := by simp [others, hlength]
      refine (hcomplete (.inl hdrained)).resolve_right fun hothers => ?_
      simp [hnone] at hothers

/-- Nothing more is returned by a closed cursor, whatever happens to the database. -/
theorem Sound.changed {collection : String} {r : ReadRun fmt}
    {entries : List (String × StoredRecord)} (h : r.Sound collection entries)
    (database : Database) : (r.changed database).Sound collection entries := by
  cases hended : r.ended with
  | true =>
    have hmoments : (r.changed database).moments = r.moments := by
      simp [ReadRun.changed, hended]
    refine ⟨h.returned, h.ascending, ?_, ?_⟩
    · rw [hmoments]
      exact h.live
    · rw [hmoments]
      exact h.gapless
  | false =>
    have hmoments : (r.changed database).moments = r.moments ++ [database] := by
      simp [ReadRun.changed, hended]
    refine ⟨h.returned, h.ascending, ?_, ?_⟩
    · intro entry hmem
      obtain ⟨moment, hmoment, hshows⟩ := h.live entry hmem
      exact ⟨moment, hmoments ▸ List.mem_append_left _ hmoment, hshows⟩
    · intro id hstays
      rw [hmoments] at hstays
      exact h.gapless id (fun moment hmoment => hstays moment (List.mem_append_left _ hmoment))

/-- The cursor is open and reads, or it is closed and what it has returned is sound. -/
def Invariant (collection : String) (r : ReadRun fmt) : Prop :=
  (∃ taken waiting, r.Reading collection taken waiting) ∨
    (r.cursor.handle.released = true ∧ ∃ entries, r.Sound collection entries)

theorem Invariant.sound {collection : String} {r : ReadRun fmt} (h : r.Invariant collection) :
    ∃ entries, r.Sound collection entries := by
  rcases h with ⟨taken, waiting, hreading⟩ | ⟨-, hsound⟩
  · exact hreading.sound
  · exact hsound

/-- The steps of a closed cursor leave it as it is. -/
theorem step_of_released {r : ReadRun fmt} (h : r.cursor.handle.released = true) :
    r.step .hasNext = r ∧ r.step .next = r ∧ r.step .tryNext = r ∧ r.step .close = r ∧
      ∀ change, r.step (.edit change) = r := by
  have hnext := StreamingCursor.hasNext_of_released r.view h
  refine ⟨?_, ?_, ?_, ?_, fun change => ?_⟩
  · simp only [step, hnext]
  · simp only [step, StreamingCursor.next, hnext]
  · simp only [step, StreamingCursor.tryNext, hnext]
  · simp only [step, StreamingCursor.close, h, if_true]
  · simp only [step, StreamingCursor.onCurrent, StreamingCursor.currentCodec, h, if_true]

/-- Every step keeps the invariant. -/
theorem Invariant.step {collection : String} {r : ReadRun fmt} (h : r.Invariant collection)
    (action : ReadStep fmt) : (r.step action).Invariant collection := by
  -- An open cursor keeps in step with its pages, a closed one returns nothing more.
  rcases h with ⟨taken, waiting, hreading⟩ | ⟨hreleased, entries, hsound⟩
  · cases action with
    | hasNext =>
      refine .inl ?_
      unfold ReadRun.step
      rcases hreading.hasNext with ⟨failure, cursor, hnext, hkept⟩
          | ⟨cursor, hnext, -, -, hkept⟩ | ⟨cursor, hnext, hkept⟩
      · simpa only [hnext] using hkept
      · simpa only [hnext] using hkept
      · simpa only [hnext] using hkept
    | next => exact .inl hreading.next
    | tryNext => exact .inl hreading.tryNext
    | edit change => exact .inl ⟨taken, waiting, hreading.edit change⟩
    | close =>
      obtain ⟨entries, hsound⟩ := hreading.sound
      have hclosed : (r.step .close).cursor.handle.released = true := by
        simp [ReadRun.step, StreamingCursor.close, hreading.opened]
      exact .inr ⟨hclosed, entries, hsound.returned, hsound.ascending, hsound.live, hsound.gapless⟩
    | batch store request => exact .inl ⟨taken, waiting, hreading.changed _⟩
    | disturb change => exact .inl ⟨taken, waiting, hreading.changed _⟩
    | learn query =>
      exact .inl ⟨taken, waiting, hreading.opened, hreading.covers, hreading.rows,
        hreading.present, hreading.reported, hreading.finished⟩
  · obtain ⟨hhasNext, hnext, htryNext, hclose, hedit⟩ := step_of_released hreleased
    have hkept : r.Invariant collection := .inr ⟨hreleased, entries, hsound⟩
    cases action with
    | hasNext => rwa [hhasNext]
    | next => rwa [hnext]
    | tryNext => rwa [htryNext]
    | edit change => rwa [hedit change]
    | close => rwa [hclose]
    | batch store request => exact .inr ⟨hreleased, entries, hsound.changed _⟩
    | disturb change => exact .inr ⟨hreleased, entries, hsound.changed _⟩
    | learn query =>
      exact .inr
        ⟨hreleased, entries, hsound.returned, hsound.ascending, hsound.live, hsound.gapless⟩

theorem Invariant.run {collection : String} {r : ReadRun fmt} (h : r.Invariant collection)
    (steps : List (ReadStep fmt)) : (r.run steps).Invariant collection := by
  induction steps generalizing r with
  | nil => exact h
  | cons action rest ih => exact ih (h.step action)

theorem invariant_opened (view : DatabaseView) (collection : String) (fetchSize : Nat) :
    (opened view (.ofCollection collection fetchSize) : ReadRun fmt).Invariant collection := by
  refine .inl ⟨[], [], rfl, .ofCollection collection fetchSize _, rfl, fun _ => ?_, ?_, ?_⟩
  · exact List.mem_cons_self
  · rintro (⟨hloaded, -⟩ | hexhausted)
    · cases hloaded
    · cases hexhausted
  · intro hended
    cases hended

end ReadRun

/-! ## Neither skipped nor repeated -/

namespace Keyed

variable {α : Type}

/-- A key comes once. -/
theorem count_key {entries : List (String × α)} (h : Ascending entries) {key : String}
    (hmem : key ∈ entries.map Prod.fst) : (entries.map Prod.fst).count key = 1 := by
  refine List.count_eq_one_of_mem ?_ hmem
  refine List.pairwise_map.mpr (h.imp fun hlt heq => ?_)
  rw [heq] at hlt
  exact String.lt_irrefl _ hlt

/-- Entries of a list that leave no key out before their last are a first piece of it. -/
theorem isPrefix_of_gapless {entries all : List (String × α)} (hentries : Ascending entries)
    (hall : Ascending all) (hmem : ∀ entry ∈ entries, entry ∈ all)
    (hgapless : ∀ other ∈ all, (∃ entry ∈ entries, other.1 < entry.1) →
      other.1 ∈ entries.map Prod.fst) : entries <+: all := by
  induction all generalizing entries with
  | nil =>
    have hnone : entries = [] := List.eq_nil_iff_forall_not_mem.mpr fun entry hentry => by
      cases hmem entry hentry
    exact hnone ▸ List.nil_prefix
  | cons head rest ih =>
    obtain ⟨hhead, hrest⟩ := List.pairwise_cons.mp hall
    cases entries with
    | nil => exact List.nil_prefix
    | cons first others =>
      obtain ⟨hfirst, hothers⟩ := List.pairwise_cons.mp hentries
      have hsame : first = head := by
        rcases List.mem_cons.mp (hmem first List.mem_cons_self) with hsame | hlater
        · exact hsame
        · -- The head comes before the first entry, so its key would have to be among theirs.
          exfalso
          have hlt : head.1 < first.1 := hhead first hlater
          have hkey := hgapless head List.mem_cons_self ⟨first, List.mem_cons_self, hlt⟩
          obtain ⟨entry, hentry, hsame⟩ := List.mem_map.mp hkey
          rw [← hsame] at hlt
          rcases List.mem_cons.mp hentry with rfl | hentry
          · exact String.lt_irrefl _ hlt
          · exact String.lt_asymm hlt (hfirst entry hentry)
      subst hsame
      refine List.cons_prefix_cons.mpr ⟨rfl, ih hothers hrest ?_ ?_⟩
      · intro entry hentry
        rcases List.mem_cons.mp (hmem entry (List.mem_cons_of_mem _ hentry)) with rfl | hin
        · exact absurd (hfirst entry hentry) (String.lt_irrefl _)
        · exact hin
      · intro other hother hbefore
        obtain ⟨entry, hentry, hlt⟩ := hbefore
        have hkey := hgapless other (List.mem_cons_of_mem _ hother)
          ⟨entry, List.mem_cons_of_mem _ hentry, hlt⟩
        rcases List.mem_cons.mp hkey with heq | hin
        · have hafter := hhead other hother
          rw [heq] at hafter
          exact absurd hafter (String.lt_irrefl _)
        · exact hin

/-- A first piece of ascending entries with the keys of all of them is all of them. -/
theorem eq_of_isPrefix {entries all : List (String × α)} (hall : Ascending all)
    (hpiece : entries <+: all) (hkeys : ∀ entry ∈ all, entry.1 ∈ entries.map Prod.fst) :
    entries = all := by
  obtain ⟨others, rfl⟩ := hpiece
  cases others with
  | nil => rw [List.append_nil]
  | cons other rest =>
    exfalso
    obtain ⟨entry, hentry, hkey⟩ :=
      List.mem_map.mp (hkeys other (List.mem_append_right _ List.mem_cons_self))
    have hlt : entry.1 < other.1 :=
      (List.pairwise_append.mp hall).2.2 entry hentry other List.mem_cons_self
    rw [hkey] at hlt
    exact String.lt_irrefl _ hlt

end Keyed

/-- A read that is left alone visits the live rows of its collection, and comes to its end. -/
theorem PagedRows.forEach_ofCollection {α : Type} {view : DatabaseView}
    (hfeatures : view.database.features.isSome) (collection : String) (fetchSize : Nat)
    (visit : Codec fmt → α × Codec fmt) :
    ((StreamingCursor.ofSource (ofCollection collection fetchSize)).forEach view visit).1
      = .ok ((view.database.records collection).live.map
          (fun entry => (visit (ReadRun.codecOf entry)).1)) := by
  have hsupplies := supplies_ofCollection hfeatures collection fetchSize
  rw [(StreamingCursor.awaits_ofSource hsupplies).forEach visit, List.map_map, List.map_map]
  rfl

/-- A read in pages neither skips nor repeats, whatever happens to the database between its
    steps, and whatever the size of a page. The cursor returns the rows of entries whose ids
    ascend; each of them was live at some moment from the opening of the cursor to the report
    of its end. An id that has been live at every moment is returned exactly once, once the
    end has been reported or a row of a later id has been returned. Where the collection has
    not changed the entries are the first of its live entries, and all of them at the end. A
    read that is left alone does come to that end. -/
theorem DatabaseStore.readAll_neither_skips_nor_repeats {α : Type} (s : DatabaseStore)
    {rows : PagedRows} (hopen : s.readAll = .ok rows) (view : DatabaseView)
    (steps : List (ReadStep fmt)) (visit : Codec fmt → α × Codec fmt) :
    let collection := s.config.collection
    let live := (view.database.records collection).live
    let run := (ReadRun.opened view rows).run steps
    (∃ entries : List (String × StoredRecord),
      run.returned = entries.map ReadRun.codecOf ∧
      Keyed.Ascending entries ∧
      (∀ entry ∈ entries, ∃ moment ∈ run.moments, moment.Shows collection entry) ∧
      (∀ id, StaysLive collection run.moments id →
        (∃ entry ∈ entries, id < entry.1) ∨ run.ended = true →
          (entries.map Prod.fst).count id = 1) ∧
      ((∀ moment ∈ run.moments,
          moment.records collection = view.database.records collection) →
        entries <+: live ∧ (run.ended = true → entries = live))) ∧
    (view.database.features.isSome →
      ((StreamingCursor.ofSource rows).forEach view visit).1
        = .ok (live.map (fun entry => (visit (ReadRun.codecOf entry)).1))) := by
  intro collection live run
  have hrows : rows = .ofCollection collection s.config.fetchSize := by
    unfold readAll at hopen
    split at hopen
    · cases hopen
    · exact (Except.ok.inj hopen).symm
  subst hrows
  constructor
  · have hinvariant : run.Invariant collection :=
      (ReadRun.invariant_opened view collection s.config.fetchSize).run steps
    obtain ⟨entries, hreturned, hascending, hlive, hgapless⟩ := hinvariant.sound
    refine ⟨entries, hreturned, hascending, hlive, ?_, ?_⟩
    · intro id hstays hwhere
      exact Keyed.count_key hascending (hgapless id hstays hwhere)
    · intro hsame
      have hmem : ∀ entry ∈ entries, entry ∈ live := by
        intro entry hentry
        obtain ⟨moment, hmoment, hshows⟩ := hlive entry hentry
        rw [Database.Shows, hsame moment hmoment] at hshows
        exact hshows
      -- Without changes every live id stays live, and so none is left out.
      have hstays : ∀ entry ∈ live, StaysLive collection run.moments entry.1 := by
        intro entry hentry moment hmoment
        refine ⟨entry.2, ?_⟩
        rw [Database.Shows, hsame moment hmoment]
        exact hentry
      have hliveAscending : Keyed.Ascending live :=
        (view.database.records collection).ascending.sublist List.filter_sublist
      have hpiece : entries <+: live :=
        Keyed.isPrefix_of_gapless hascending hliveAscending hmem
          (fun other hother hbefore => hgapless other.1 (hstays other hother) (.inl hbefore))
      refine ⟨hpiece, fun hended => Keyed.eq_of_isPrefix hliveAscending hpiece ?_⟩
      exact fun other hother => hgapless other.1 (hstays other hother) (.inr hended)
  · exact fun hfeatures => PagedRows.forEach_ofCollection hfeatures collection _ visit

/-- Pages of one row each, although none was asked for. Once `a` has been returned, `b` is
    written ahead of the cursor and `a` again behind it; then `b` is purged, after its row has
    been looked up. The record of `c` is there all the time and comes once. -/
theorem DatabaseStore.readAll_neither_skips_nor_repeats_amid_batches :
    let s : DatabaseStore := { config := { fetchSize := 0, sortWritesById := false } }
    let rows := PagedRows.ofCollection "features" 0
    let record (id : String) : StoredRecord :=
      { parts := { id := some id, version := some "t" }, deleted := false }
    let records := (Dictionary.empty.insert "a" (record "a")).insert "c" (record "c")
    let view : DatabaseView :=
      { database := { features := some [("features", records)], batches := some [] } }
    let put (id : String) : WriteIntent .geo :=
      .ofCodec .put (.ofParts { id := some id, json := some "" })
    let steps : List (ReadStep .geo) :=
      [.tryNext, .batch s [put "b", put "a"], .hasNext,
        .batch s [(.ofId .purge "b" none : WriteIntent .geo)], .tryNext, .tryNext, .next]
    let run := (ReadRun.opened view rows).run steps
    s.readAll = .ok rows ∧
      run.returned.map (fun codec => codec.parts.id) = [some "a", some "b", some "c"] ∧
      run.ended = true ∧
      StaysLive "features" run.moments "c" ∧
      ∃ entries : List (String × StoredRecord),
        run.returned = entries.map ReadRun.codecOf ∧ (entries.map Prod.fst).count "c" = 1 := by
  intro s rows record records view put steps run
  have hopen : s.readAll = .ok rows := rfl
  have hids : run.returned.map (fun codec => codec.parts.id) = [some "a", some "b", some "c"] := by
    decide
  have hended : run.ended = true := by decide
  have hstays : StaysLive "features" run.moments "c" := by
    intro moment hmoment
    have hshown : ((moment.records "features").live.find? (fun entry => entry.1 = "c")).isSome := by
      revert moment
      decide
    obtain ⟨⟨id, stored⟩, hentry⟩ := Option.isSome_iff_exists.mp hshown
    have hid : id = "c" := by simpa using List.find?_some hentry
    subst hid
    exact ⟨stored, List.mem_of_find?_eq_some hentry⟩
  obtain ⟨⟨entries, hreturned, -, -, honce, -⟩, -⟩ :=
    s.readAll_neither_skips_nor_repeats hopen view steps Codec.id
  exact ⟨hopen, hids, hended, hstays, entries, hreturned, honce "c" hstays (.inr hended)⟩

end FeatureStore
