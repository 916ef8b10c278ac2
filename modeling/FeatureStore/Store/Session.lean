-- SUMMARY: Several stores at work, some of them on one database.
import FeatureStore.Store.DatabaseStore
import FeatureStore.Store.Memory

/-!
# Sessions

A session has named stores. A store in memory keeps its own records. A store in a
database has a connection to it, and several stores may have connections to one
database, so that each sees what the others write. A database outlives its stores,
and a connection outlives its store as long as a cursor reads through it.
-/

namespace FeatureStore

/-! ## Rows of either store -/

/-- The rows of a read, from the memory of a store or from a database. -/
inductive StoreRows
  | snapshot (rows : RowQueue)
  | paged (rows : PagedRows)

namespace StoreRows

def load (view : DatabaseView) : StoreRows → Except StoreError (Option Parts) × StoreRows
  | .snapshot q => let (result, q) := q.load; (result, .snapshot q)
  | .paged p => let (result, p) := RowSource.load view p; (result, .paged p)

def close : StoreRows → StoreRows
  | .snapshot q => .snapshot (RowSource.close q)
  | .paged p => .paged (RowSource.close p)

/-- A bound on the rows to come. -/
def remaining (view : DatabaseView) : StoreRows → Nat
  | .snapshot q => q.rows.length
  | .paged p => p.remaining view

instance : RowSource DatabaseView StoreRows where
  load := load
  close := close
  remaining := remaining
  remaining_load view rows parts h := by
    cases rows with
    | snapshot q => exact q.length_load parts h
    | paged p => exact RowSource.remaining_load view p parts h

/-- Whether a page has been asked for to supply these rows. -/
def asked : StoreRows → Bool
  | .snapshot _ => false
  | .paged p => p.asked

end StoreRows

/-! ## Stores and connections -/

structure Connection where
  database : Nat
  pageQuery : PageQuery := .accepted

inductive OpenStore
  | memory (s : MemoryStore)
  | database (connection : Nat) (s : DatabaseStore)

namespace OpenStore

def config : OpenStore → StoreConfig
  | .memory s => s.config
  | .database _ s => s.config

def closed : OpenStore → Bool
  | .memory s => s.closed
  | .database _ s => s.closed

def close : OpenStore → OpenStore
  | .memory s => .memory s.close
  | .database connection s => .database connection s.close

end OpenStore

/-- Where a store is opened. -/
inductive Location
  | memory
  /-- A database of its own. -/
  | privateDatabase
  /-- The database that all stores opened there share. -/
  | sharedDatabase
  /-- A place where there can be no database. -/
  | nowhere
deriving DecidableEq, Repr

/-- Stores at work. The first database is the shared one. -/
structure Session where
  databases : List Database := [{}]
  connections : List Connection := []
  stores : Keyed OpenStore := []

namespace Session

/-- The number of the shared database. -/
def shared : Nat := 0

def database (session : Session) (number : Nat) : Database := session.databases.getD number {}

def setDatabase (session : Session) (number : Nat) (db : Database) : Session :=
  { session with databases := session.databases.set number db }

def setStore (session : Session) (name : String) (store : OpenStore) : Session :=
  { session with stores := session.stores.insert name store }

def connection (session : Session) (number : Nat) : Connection :=
  session.connections.getD number { database := shared }

/-- The database that a connection leads to, as it sees it. -/
def view (session : Session) (number : Nat) : DatabaseView :=
  let connection := session.connection number
  { database := session.database connection.database, pageQuery := connection.pageQuery }

/-- The session after a connection has learnt something of its database. -/
def learn (session : Session) (number : Nat) (update : Database → PageQuery → PageQuery) :
    Session :=
  let connection := session.connection number
  let pageQuery := update (session.database connection.database) connection.pageQuery
  { session with connections := session.connections.set number { connection with pageQuery } }

/-- Open a store in a database, whose missing tables are created. -/
def connect (session : Session) (name : String) (config : StoreConfig) (number : Nat) : Session :=
  let session := session.setDatabase number (session.database number).createTables
  let store := OpenStore.database session.connections.length { config }
  let connections := session.connections ++ [{ database := number }]
  { session with connections }.setStore name store

def openStore (session : Session) (name : String) (location : Location) (config : StoreConfig) :
    Except StoreError Session :=
  match location with
  | .memory => .ok (session.setStore name (.memory (.ofConfig config)))
  | .sharedDatabase => .ok (session.connect name config shared)
  | .privateDatabase =>
    let databases := session.databases ++ [{}]
    .ok ({ session with databases }.connect name config session.databases.length)
  | .nowhere => .error (.statement "open database")

def execute {fmt : Format} (session : Session) (name : String) (store : OpenStore)
    (request : WriteRequest fmt) : WriteOutcome StoreRows fmt × Session :=
  match store with
  | .memory s =>
    let (outcome, s) := s.execute request
    (outcome, session.setStore name (.memory s))
  | .database number s =>
    let database := (session.connection number).database
    let (outcome, db) := s.execute request (session.database database)
    let session := session.setDatabase database db
    (outcome, if s.closed then session else session.learn number PageQuery.afterStatement)

def get (session : Session) (store : OpenStore) (id : String) :
    Except StoreError (Option StoredRecord) × Session :=
  match store with
  | .memory s => (.ok (s.get id), session)
  | .database number s =>
    (s.get (session.view number).database id,
      if s.closed then session else session.learn number PageQuery.afterStatement)

def readAll : OpenStore → Except StoreError StoreRows
  | .memory s => s.readAll.map .snapshot
  | .database _ s => s.readAll.map .paged

/-- The connection that the rows of a store are read through. -/
def connectionOf : OpenStore → Option Nat
  | .memory _ => none
  | .database number _ => some number

/-- The session after rows have been read through a connection. -/
def afterRead (session : Session) (number : Nat) (rows : StoreRows) : Session :=
  if rows.asked then session.learn number PageQuery.afterPage else session

/-- The session after a fault of the shared database. -/
def suffer (session : Session) (fault : Database.Fault) : Session :=
  session.setDatabase shared ((session.database shared).suffer fault)

end Session

end FeatureStore
