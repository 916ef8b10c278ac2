-- SUMMARY: A table in memory that fails after a given number of calls.
import FeatureStore.Store.Record

/-!
# Limited tables

A limited table works like any table until the budget for an operation is used up;
from then on that operation fails and changes nothing. It shows what is left of a
batch that was stopped at any point.
-/

namespace FeatureStore

/-- How many more calls of each operation succeed; without a number, all of them. -/
structure Budget where
  load : Option Nat := none
  save : Option Nat := none
  purge : Option Nat := none
  nextVersion : Option Nat := none
deriving Repr, Inhabited

/-- A table with a budget. Its versions are `v1`, `v2` and so on. -/
structure LimitedTable where
  records : Records := .empty
  versions : Nat := 0
  budget : Budget := {}

namespace LimitedTable

/-- The failure of an operation whose budget is used up. -/
def spent (operation : String) : StoreError := .backend operation "disk full"

/-- A budget after one more call, if it allows one. -/
def spend : Option Nat → Option (Option Nat)
  | none => some none
  | some 0 => none
  | some (n + 1) => some (some n)

instance : FeatureTable LimitedTable where
  load id t :=
    match spend t.budget.load with
    | none => (.error (spent "load"), t)
    | some load => (.ok (t.records.find? id), { t with budget := { t.budget with load } })
  save record t :=
    match spend t.budget.save with
    | none => (.error (spent "save"), t)
    | some save =>
      (.ok (), { t with
        records := t.records.insert record.key record, budget := { t.budget with save } })
  purge id t :=
    match spend t.budget.purge with
    | none => (.error (spent "purge"), t)
    | some purge =>
      (.ok (), { t with records := t.records.erase id, budget := { t.budget with purge } })
  nextVersion t :=
    match spend t.budget.nextVersion with
    | none => (.error (spent "next_version"), t)
    | some nextVersion =>
      (.ok ("v" ++ toString (t.versions + 1)), { t with
        versions := t.versions + 1, budget := { t.budget with nextVersion } })

end LimitedTable

end FeatureStore
