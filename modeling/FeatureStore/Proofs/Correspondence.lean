-- SUMMARY: Records, plans and effects that are the same but for their versions.
import FeatureStore.Proofs.Tokens
import Mathlib.Data.Option.Basic

/-!
# Correspondence up to versions

Two executions of one batch may give the same writes different versions. This module says
what it means for what they store and report to be the same otherwise, and that plans
depend on versions only by comparing them with the guard of an intent: records that
correspond get plans that correspond, as long as the guard does not tell their versions
apart.
-/

namespace FeatureStore

variable {fmt : Format}

section

variable (same : String → String → Prop)

/-- The parts are equal but for their versions, which correspond. -/
structure Parts.Like (p q : Parts) : Prop where
  others : { p with version := none } = { q with version := none }
  version : Option.Rel same p.version q.version

/-- Both records are live or both are deleted, and their parts correspond. -/
structure StoredRecord.Like (r s : StoredRecord) : Prop where
  deleted : r.deleted = s.deleted
  parts : Parts.Like same r.parts s.parts

/-- The results are those of one operation on one id, with one cause of rejection, and
    show corresponding features or none. -/
structure ExecutedResult.Like (r s : ExecutedResult) : Prop where
  op : r.op = s.op
  id : r.id = s.id
  cause : r.cause = s.cause
  feature : Option.Rel (Parts.Like same) r.feature s.feature

end

variable {same : String → String → Prop}

/-! ## Parts -/

namespace Parts.Like

theorem refl {p : Parts} (h : ∀ version, p.version = some version → same version version) :
    Parts.Like same p p := by
  refine ⟨rfl, ?_⟩
  cases hversion : p.version with
  | none => exact .none
  | some version => exact .some (h version hversion)

theorem id {p q : Parts} (h : Parts.Like same p q) : p.id = q.id := by
  have hid := congrArg Parts.id h.others
  exact hid

theorem body {p q : Parts} (h : Parts.Like same p q) : p.body = q.body := by
  have hbody := congrArg Parts.body h.others
  exact hbody

theorem identity {p q : Parts} (h : Parts.Like same p q) :
    Parts.Like same p.identity q.identity := by
  refine ⟨?_, h.version⟩
  simp only [Parts.identity, h.id]

theorem withBody {p q : Parts} (h : Parts.Like same p q) (keep : Body → Body) :
    Parts.Like same (p.withBody (keep p.body)) (q.withBody (keep q.body)) := by
  have hbody : p.body = q.body := h.body
  refine ⟨?_, h.version⟩
  simp only [Parts.withBody, hbody, h.id]

end Parts.Like

namespace ExecutedResult.Like

theorem forIntent {r s : ExecutedResult} (h : ExecutedResult.Like same r s) (place place' : Nat) :
    ExecutedResult.Like same (r.forIntent place) (s.forIntent place') :=
  ⟨h.op, h.id, h.cause, h.feature⟩

theorem withoutBody {r s : ExecutedResult} (h : ExecutedResult.Like same r s) :
    ExecutedResult.Like same r.withoutBody s.withoutBody := by
  refine ⟨h.op, h.id, h.cause, ?_⟩
  have hfeature := h.feature
  unfold ExecutedResult.withoutBody
  generalize r.feature = p at hfeature
  generalize s.feature = q at hfeature
  cases hfeature with
  | none => exact .none
  | some hparts => exact .some hparts.identity

theorem executed (op : ExecutedOp) {p q : Parts} (h : Parts.Like same p q) :
    ExecutedResult.Like same (.executed op p) (.executed op q) :=
  ⟨rfl, h.id, rfl, .some h⟩

/-- Corresponding results report corresponding tokens. -/
theorem token {r s : ExecutedResult} (h : ExecutedResult.Like same r s) :
    Option.Rel same r.token s.token := by
  have hfeature := h.feature
  unfold ExecutedResult.token
  rw [h.op]
  generalize r.feature = p at hfeature
  generalize s.feature = q at hfeature
  split
  · cases hfeature with
    | none => exact .none
    | some hparts => exact hparts.version
  · exact .none

end ExecutedResult.Like

/-! ## Decisions -/

/-- The guard does not tell corresponding versions apart. -/
def Unguarded (same : String → String → Prop) (guard : Option String) : Prop :=
  ∀ v w, same v w → Resolution.mismatched guard v = Resolution.mismatched guard w

namespace Resolution

/-- Only by a mismatch with the guard does a version matter. -/
theorem resolve_live_congr (view : IntentView) {v w : String}
    (h : mismatched view.version v = mismatched view.version w) :
    resolve view (.live v) = resolve view (.live w) := by
  have hlive : resolveLive view v = resolveLive view w := by
    simp only [resolveLive, guarded, h]
  unfold resolve
  cases view.op <;> simp only [StoredState.liveVersion, hlive]

theorem resolve_deleted_congr (view : IntentView) {v w : String}
    (h : mismatched view.version v = mismatched view.version w) :
    resolve view (.deleted v) = resolve view (.deleted w) := by
  unfold resolve
  cases view.op <;> simp only [StoredState.liveVersion, resolvePurge, h]

theorem resolve_congr {view : IntentView} (hguard : Unguarded same view.version)
    {stored stored' : Option StoredRecord}
    (h : Option.Rel (StoredRecord.Like same) stored stored') :
    resolve view (.ofRecord? stored) = resolve view (.ofRecord? stored') := by
  cases h with
  | none => rfl
  | @some r s hlike =>
    have hmismatched : mismatched view.version (r.parts.version.getD "")
        = mismatched view.version (s.parts.version.getD "") := by
      have hversion := hlike.parts.version
      generalize r.parts.version = v at hversion
      generalize s.parts.version = w at hversion
      cases hversion with
      | none => rfl
      | some hsame => exact hguard _ _ hsame
    simp only [StoredState.ofRecord?, StoredRecord.state, hlike.deleted]
    split
    · exact resolve_deleted_congr view hmismatched
    · exact resolve_live_congr view hmismatched

end Resolution

/-! ## Plans and effects -/

namespace Batch

/-- The plans do the same, with parts that are equal but for their versions. A version that
    is about to be replaced does not count. -/
def Plan.Like (same : String → String → Prop) : Plan → Plan → Prop
  | .answer r, .answer s => ExecutedResult.Like same r s
  | .write op r thenPurge, .write op' s thenPurge' =>
    op = op' ∧ thenPurge = thenPurge' ∧ r.deleted = s.deleted ∧
      { r.parts with version := none } = { s.parts with version := none }
  | .purge p, .purge q => Parts.Like same p q
  | _, _ => False

/-- The effects report and leave the same, up to versions. -/
structure Effect.Like (same : String → String → Prop) (e f : Effect) : Prop where
  results : List.Forall₂ (ExecutedResult.Like same) e.results f.results
  record : Option.Rel (StoredRecord.Like same) e.record f.record
  wrote : e.wrote = f.wrote

namespace Plan

theorem like_store (op : ExecutedOp) (intent : WriteIntent fmt) (id : String) :
    Plan.Like same (store op intent id) (store op intent id) := by
  unfold store
  split
  · exact ⟨rfl, rfl, rfl, .none⟩
  · exact ⟨rfl, rfl, rfl, rfl⟩

/-- Records that correspond get plans that correspond. -/
theorem like_make {intent : WriteIntent fmt} (hguard : Unguarded same intent.version.1)
    (id : String) {stored stored' : Option StoredRecord}
    (h : Option.Rel (StoredRecord.Like same) stored stored') :
    Plan.Like same (make intent id stored) (make intent id stored') := by
  have hparts : Option.Rel (Parts.Like same) (stored.map StoredRecord.parts)
      (stored'.map StoredRecord.parts) := by
    cases h with
    | none => exact .none
    | some hlike => exact .some hlike.parts
  have hreported : ∀ withCurrent : Bool, Option.Rel (Parts.Like same)
      (if withCurrent then stored.map StoredRecord.parts else none)
      (if withCurrent then stored'.map StoredRecord.parts else none) := by
    intro withCurrent
    split
    · exact hparts
    · exact .none
  have haffected : Parts.Like same ((stored.map StoredRecord.parts).getD (.ofId id))
      ((stored'.map StoredRecord.parts).getD (.ofId id)) := by
    generalize stored.map StoredRecord.parts = p at hparts
    generalize stored'.map StoredRecord.parts = q at hparts
    cases hparts with
    | none => exact ⟨rfl, .none⟩
    | some hlike => exact hlike
  have hview : Unguarded same intent.view.1.version := hguard
  have hdecision : Resolution.resolve intent.view.1 (.ofRecord? stored)
      = Resolution.resolve intent.view.1 (.ofRecord? stored') :=
    Resolution.resolve_congr hview h
  -- The guard is no renamed token, so that both records match it or neither does.
  unfold make
  rw [← hdecision]
  cases Resolution.resolve intent.view.1 (.ofRecord? stored) with
  | retain withCurrent => exact ⟨rfl, rfl, rfl, hreported withCurrent⟩
  | fail cause withCurrent => exact ⟨rfl, rfl, rfl, hreported withCurrent⟩
  | create => exact like_store .created intent id
  | update => exact like_store .updated intent id
  | delete => exact ⟨rfl, rfl, rfl, haffected.others⟩
  | restore => exact ⟨rfl, rfl, rfl, haffected.others⟩
  | purge => exact haffected

theorem like_stamp {r s : StoredRecord} {v w : String} (hsame : same v w)
    (hdeleted : r.deleted = s.deleted)
    (hparts : { r.parts with version := none } = { s.parts with version := none }) :
    StoredRecord.Like same (stamp r v) (stamp s w) := by
  refine ⟨hdeleted, ?_, .some hsame⟩
  exact congrArg (fun parts : Parts => { parts with op := none }) hparts

/-- Plans that correspond have effects that correspond, if the versions do that they write
    under. -/
theorem like_effect {plan plan' : Plan} (hplan : Plan.Like same plan plan') (keep : Body → Body)
    {stored stored' : Option StoredRecord}
    (hstored : Option.Rel (StoredRecord.Like same) stored stored') {v w : String}
    (hsame : (plan.effect keep stored v).wrote → (plan'.effect keep stored' w).wrote → same v w) :
    Effect.Like same (plan.effect keep stored v) (plan'.effect keep stored' w) := by
  cases plan with
  | answer r =>
    cases plan' with
    | answer s => exact ⟨.cons hplan .nil, hstored, rfl⟩
    | write => cases hplan
    | purge => cases hplan
  | purge p =>
    cases plan' with
    | answer => cases hplan
    | write => cases hplan
    | purge q => exact ⟨.cons (.executed .purged hplan) .nil, .none, rfl⟩
  | write op r thenPurge =>
    cases plan' with
    | answer => cases hplan
    | purge => cases hplan
    | write op' s thenPurge' =>
      -- Both plans write, under versions of which it is known that they correspond.
      obtain ⟨rfl, rfl, hdeleted, hparts⟩ := hplan
      cases thenPurge with
      | false =>
        have hlike := like_stamp (hsame rfl rfl) hdeleted hparts
        exact ⟨.cons (.executed op hlike.parts) .nil,
          .some ⟨hlike.deleted, hlike.parts.withBody keep⟩, rfl⟩
      | true =>
        have hlike := like_stamp (hsame rfl rfl) hdeleted hparts
        exact ⟨.cons (.executed op hlike.parts) (.cons (.executed .purged hlike.parts) .nil),
          .none, rfl⟩

end Plan

end Batch

end FeatureStore
