-- SUMMARY: The words of writing: requested operations, policies, executed operations and causes of rejection.

/-!
# Vocabulary of writes

A writer asks for an operation on a feature. Three policies say what happens when
the feature exists, when it does not, and when the given version is not the stored
one. The store answers with the operation it executed, or with the cause for
which it rejected the request.
-/

namespace FeatureStore

/-- An operation that a writer asks for. -/
inductive WriteOp
  /-- Make a new feature; the id must be free. -/
  | create
  /-- Replace an existing feature. -/
  | update
  /-- Create, or update if the id is taken. -/
  | put
  /-- Move a live feature to the deleted state. -/
  | delete
  /-- Delete, then remove the deleted state. -/
  | purge
  /-- Bring a deleted feature back. -/
  | restore
deriving DecidableEq, Repr

/-- What to do when the feature exists. -/
inductive IfExists
  | fail
  | retain
  | replace
  | delete
  | purge
deriving DecidableEq, Repr

/-- What to do when the given version is not the stored one. -/
inductive IfConflict
  | fail
  | retain
  /-- Ignore the difference and go on. -/
  | replace
deriving DecidableEq, Repr

/-- What to do when the feature does not exist. -/
inductive IfNotExists
  | fail
  | retain
  | create
deriving DecidableEq, Repr

/-- What was done. -/
inductive ExecutedOp
  | read
  | retained
  | created
  | updated
  | deleted
  | purged
  | restored
  | error
deriving DecidableEq, Repr

/-- Why a request was rejected. -/
inductive ErrorCause
  /-- The given version is not the stored one. -/
  | conflict
  /-- The feature exists already. -/
  | alreadyExists
  /-- The feature does not exist. -/
  | notFound
  /-- The request lacks an id or a body that it needs. -/
  | invalid
deriving DecidableEq, Repr

/-! ## Policies of operations -/

namespace WriteOp

def requiresFeature : WriteOp → Bool
  | .create | .update | .put => true
  | .delete | .purge | .restore => false

def defaultIfExists : WriteOp → IfExists
  | .create => .fail
  | .update | .put => .replace
  | .delete => .delete
  | .purge => .purge
  | .restore => .retain

def defaultIfNotExists : WriteOp → IfNotExists
  | .create | .put => .create
  | .update | .restore => .fail
  | .delete | .purge => .retain

end WriteOp

/-! ## Names

Every word has a name, and `ofName?` finds the word of a name. -/

namespace WriteOp

def all : List WriteOp := [.create, .update, .put, .delete, .purge, .restore]

/-- The name of an operation, in small letters. -/
def name : WriteOp → String
  | .create => "create"
  | .update => "update"
  | .put => "put"
  | .delete => "delete"
  | .purge => "purge"
  | .restore => "restore"

def ofName? (name : String) : Option WriteOp := all.find? (fun op => op.name = name)

@[simp] theorem ofName?_name (op : WriteOp) : ofName? op.name = some op := by
  cases op <;> rfl

end WriteOp

namespace IfExists

def all : List IfExists := [.fail, .retain, .replace, .delete, .purge]

def name : IfExists → String
  | .fail => "Fail"
  | .retain => "Retain"
  | .replace => "Replace"
  | .delete => "Delete"
  | .purge => "Purge"

def ofName? (name : String) : Option IfExists := all.find? (fun policy => policy.name = name)

@[simp] theorem ofName?_name (policy : IfExists) : ofName? policy.name = some policy := by
  cases policy <;> rfl

end IfExists

namespace IfConflict

def all : List IfConflict := [.fail, .retain, .replace]

def name : IfConflict → String
  | .fail => "Fail"
  | .retain => "Retain"
  | .replace => "Replace"

def ofName? (name : String) : Option IfConflict := all.find? (fun policy => policy.name = name)

@[simp] theorem ofName?_name (policy : IfConflict) : ofName? policy.name = some policy := by
  cases policy <;> rfl

end IfConflict

namespace IfNotExists

def all : List IfNotExists := [.fail, .retain, .create]

def name : IfNotExists → String
  | .fail => "Fail"
  | .retain => "Retain"
  | .create => "Create"

def ofName? (name : String) : Option IfNotExists := all.find? (fun policy => policy.name = name)

@[simp] theorem ofName?_name (policy : IfNotExists) : ofName? policy.name = some policy := by
  cases policy <;> rfl

end IfNotExists

namespace ExecutedOp

def all : List ExecutedOp :=
  [.read, .retained, .created, .updated, .deleted, .purged, .restored, .error]

/-- The name of an executed operation, in capitals. -/
def name : ExecutedOp → String
  | .read => "READ"
  | .retained => "RETAINED"
  | .created => "CREATED"
  | .updated => "UPDATED"
  | .deleted => "DELETED"
  | .purged => "PURGED"
  | .restored => "RESTORED"
  | .error => "ERROR"

def ofName? (name : String) : Option ExecutedOp := all.find? (fun op => op.name = name)

@[simp] theorem ofName?_name (op : ExecutedOp) : ofName? op.name = some op := by
  cases op <;> rfl

end ExecutedOp

namespace ErrorCause

def all : List ErrorCause := [.conflict, .alreadyExists, .notFound, .invalid]

def name : ErrorCause → String
  | .conflict => "Conflict"
  | .alreadyExists => "Exists"
  | .notFound => "NotFound"
  | .invalid => "Invalid"

def ofName? (name : String) : Option ErrorCause := all.find? (fun cause => cause.name = name)

@[simp] theorem ofName?_name (cause : ErrorCause) : ofName? cause.name = some cause := by
  cases cause <;> rfl

def describe : ErrorCause → String
  | .conflict => "version token does not match the stored version"
  | .alreadyExists => "a feature with this id already exists"
  | .notFound => "the feature does not exist"
  | .invalid => "the intent lacks an id or a required feature"

end ErrorCause

end FeatureStore
