-- SUMMARY: How a write intent applies to the stored state of its feature.
import FeatureStore.Write.Vocabulary

/-!
# Resolution

`resolve` decides what to do for an intent from its operation, its policies, the
version it carries and whether it carries a body, and from the stored state of the
feature. Carrying the decision out is left to whoever holds the table.

A purge of a live feature is a delete followed by a purge of the deleted state. The
second step is decided by `resolvePurge` on the state that the first step has left.
-/

namespace FeatureStore

/-- What is stored of a feature, with the version of that state. -/
inductive StoredState
  | absent
  | live (version : String)
  | deleted (version : String)
deriving DecidableEq, Repr

def StoredState.liveVersion : StoredState → Option String
  | .live version => some version
  | .absent | .deleted _ => none

/-- What the resolution looks at in an intent. -/
structure IntentView where
  op : WriteOp
  ifExists : IfExists
  ifConflict : IfConflict
  ifNotExists : IfNotExists
  version : Option String
  hasFeature : Bool
deriving DecidableEq, Repr

/-- What to do for an intent. -/
inductive Decision
  /-- Store the body as a new live feature. -/
  | create
  /-- Replace the live feature by the body. -/
  | update
  /-- Move the live feature to the deleted state. -/
  | delete
  /-- Remove the deleted state. -/
  | purge
  /-- Move the deleted state back to live. -/
  | restore
  /-- Change nothing, and report the stored feature or nothing. -/
  | retain (withCurrent : Bool)
  /-- Reject the intent, with the stored feature attached or not. -/
  | fail (cause : ErrorCause) (withCurrent : Bool)
deriving DecidableEq, Repr

namespace Resolution

/-- Whether a version is given and is not the stored one. An intent without a version
    never conflicts. -/
def mismatched (expected : Option String) (current : String) : Bool :=
  match expected with
  | some version => version != current
  | none => false

/-- The purge step: only a deleted state can be purged. -/
def resolvePurge (version : Option String) : StoredState → Decision
  | .absent => .retain false
  | .deleted current => if mismatched version current then .fail .conflict true else .purge
  | .live _ => .fail .conflict true

/-- Without a live feature the policy for a missing feature decides. -/
def resolveMissing (intent : IntentView) : Decision :=
  match intent.ifNotExists with
  | .fail => .fail .notFound false
  | .retain => .retain false
  | .create => if intent.hasFeature then .create else .fail .invalid false

/-- A change of a live feature goes ahead unless the versions differ; then the policy
    for conflicts decides. -/
def guarded (intent : IntentView) (current : String) (change : Decision) : Decision :=
  if mismatched intent.version current then
    match intent.ifConflict with
    | .fail => .fail .conflict true
    | .retain => .retain true
    | .replace => change
  else change

/-- With a live feature the policy for an existing feature decides. -/
def resolveLive (intent : IntentView) (current : String) : Decision :=
  match intent.ifExists with
  | .fail => .fail .alreadyExists true
  | .retain => .retain true
  | .replace => if intent.hasFeature then guarded intent current .update else .fail .invalid true
  | .delete | .purge => guarded intent current .delete

/-- What to do for an intent on a stored state. An operation that needs a body is
    rejected without one, before any policy is asked. Purging what is not live and
    restoring what is deleted have rules of their own. -/
def resolve (intent : IntentView) (stored : StoredState) : Decision :=
  match intent.op, stored with
  | .purge, .absent | .purge, .deleted _ => resolvePurge intent.version stored
  | .restore, .deleted current =>
    if mismatched intent.version current then .fail .conflict true else .restore
  | _, _ =>
    if intent.op.requiresFeature && !intent.hasFeature then .fail .invalid false
    else
      match stored.liveVersion with
      | none => resolveMissing intent
      | some current => resolveLive intent current

end Resolution

end FeatureStore
