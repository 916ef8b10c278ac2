-- SUMMARY: A request executed in two orders: the same is done to every id, under other versions.
import FeatureStore.Proofs.Correspondence
import FeatureStore.Proofs.History
import Mathlib.Data.List.Forall2

/-!
# Reordering

What happens to one id in a batch depends on the intents for that id, in their order, and
on the versions that they are offered. `chain_attempts` says so: the attempts at an id are
a chain that leads from its record before the batch to its record after it, each attempt
starting from the record that the one before has left.

Both orders of execution have the same attempts at each id, in the same order. So the two
chains are followed side by side (`like_chain`), and what is done in them is the same but
for the versions.
-/

namespace FeatureStore

variable {fmt : Format} {τ : Type} [FeatureTable τ] [SteadyTable τ]

namespace Batch

/-! ## Attempts on a steady table -/

def Attempt.effect (attempt : Attempt fmt τ) (id : String) : Effect :=
  (SteadyTable.ledger attempt.before).effect (RecordTable.keep τ) attempt.intent id

/-- The version that a write of the attempt gets. -/
def Attempt.offered (attempt : Attempt fmt τ) : String :=
  (SteadyTable.versions attempt.before).head

theorem Attempt.Steady.results_of_target {attempt : Attempt fmt τ} (h : attempt.Steady)
    {id : String} (htarget : attempt.intent.target = some id) :
    attempt.step.results = (attempt.effect id).results := by
  rw [h.step_eq.2]
  simp only [Ledger.execute, htarget]
  rfl

theorem Attempt.Steady.results_of_none {attempt : Attempt fmt τ} (h : attempt.Steady)
    (htarget : attempt.intent.target = none) :
    attempt.step.results = [.rejected .invalid none none] := by
  rw [h.step_eq.2]
  simp only [Ledger.execute, htarget]

/-- An attempt at an id reports a token exactly when it writes. -/
theorem Attempt.Steady.tokens {attempt : Attempt fmt τ} (h : attempt.Steady) {id : String}
    (htarget : attempt.intent.target = some id) :
    attempt.results.filterMap ExecutedResult.token
      = if (attempt.effect id).wrote then [attempt.offered] else [] := by
  rw [attempt.token_results, h.results_of_target htarget]
  exact Plan.token_effect (Plan.labelled_make attempt.intent id _) _ _ _

/-- What executing an intent leaves of an id. -/
theorem records_execute (keep : Body → Body) (ledger : Ledger) (intent : WriteIntent fmt)
    (id : String) :
    (ledger.execute keep intent).2.records id
      = if intent.target = some id then (ledger.effect keep intent id).record
        else ledger.records id := by
  unfold Ledger.execute
  cases htarget : intent.target with
  | none => rfl
  | some other =>
    simp only [Ledger.after, Function.update_apply, Option.some.injEq, eq_comm]
    split
    · next heq => rw [heq]
    · rfl

/-! ## Chains -/

/-- Attempts that lead from one record of an id to another. -/
def Chain (id : String) : Option StoredRecord → List (Attempt fmt τ) → Option StoredRecord → Prop
  | first, [], last => first = last
  | first, attempt :: rest, last =>
    RecordTable.records attempt.before id = first ∧ Chain id (attempt.effect id).record rest last

/-- The attempts of a batch that are made for an id. -/
def attemptsAt (id : String) (attempts : List (Attempt fmt τ)) : List (Attempt fmt τ) :=
  attempts.filter (fun attempt => attempt.intent.target = some id)

omit [FeatureTable τ] [SteadyTable τ] in
theorem mem_attemptsAt {id : String} {attempts : List (Attempt fmt τ)} {attempt : Attempt fmt τ}
    (h : attempt ∈ attemptsAt id attempts) :
    attempt ∈ attempts ∧ attempt.intent.target = some id := by
  obtain ⟨hmem, htarget⟩ := List.mem_filter.mp h
  exact ⟨hmem, of_decide_eq_true htarget⟩

/-- On a steady table every attempt is steady, and the attempts at an id lead from its
    record before the batch to its record after it. -/
theorem chain_attempts (place : Nat) (t : τ) (agenda : List (Nat × WriteIntent fmt))
    (hsound : SteadyTable.sound t) (hid : Identified (RecordTable.records t)) :
    (∀ attempt ∈ attempts place t agenda, attempt.Steady) ∧
      ∀ id, Chain id (RecordTable.records t id) (attemptsAt id (attempts place t agenda))
        (RecordTable.records (executeFrom place t (agenda.map Prod.snd)).2 id) := by
  induction agenda generalizing place t with
  | nil => exact ⟨by simp [attempts], fun id => rfl⟩
  | cons entry rest ih =>
    obtain ⟨t₁, hsound₁, hid₁, hledger₁, hattempts, htable⟩ :=
      attempts_cons_of_steady place entry rest hsound hid
    obtain ⟨hsteady, hchain⟩ := ih (place + 1) t₁ hsound₁ hid₁
    have hrecords : ∀ id, RecordTable.records t₁ id
        = if entry.2.target = some id then
            ((SteadyTable.ledger t).effect (RecordTable.keep τ) entry.2 id).record
          else RecordTable.records t id := by
      intro id
      have hstep := records_execute (RecordTable.keep τ) (SteadyTable.ledger t) entry.2 id
      rw [← hledger₁] at hstep
      exact hstep
    rw [htable, hattempts]
    refine ⟨?_, ?_⟩
    · intro attempt hattempt
      rcases List.mem_cons.mp hattempt with rfl | hattempt
      · exact ⟨hsound, hid⟩
      · exact hsteady attempt hattempt
    · -- An attempt at another id is passed over, and the record at this one waits.
      intro id
      have hrest := hchain id
      rw [hrecords] at hrest
      unfold attemptsAt at hrest ⊢
      by_cases htarget : entry.2.target = some id
      · rw [if_pos htarget] at hrest
        rw [List.filter_cons_of_pos (by simpa using htarget)]
        exact ⟨rfl, hrest⟩
      · rw [if_neg htarget] at hrest
        rw [List.filter_cons_of_neg (by simpa using htarget)]
        exact hrest

/-! ## Two chains side by side -/

variable {same : String → String → Prop}

/-- Two attempts at one intent do the same to an id, up to versions. -/
structure Attempt.Like (same : String → String → Prop) (id : String) (a b : Attempt fmt τ) :
    Prop where
  submitted : a.submitted = b.submitted
  intent : a.intent = b.intent
  effect : Effect.Like same (a.effect id) (b.effect id)

/-- Chains of the same intents that begin with corresponding records do the same and end
    with corresponding records. -/
theorem like_chain {id : String} {xs ys : List (Attempt fmt τ)}
    (hentries : xs.map (fun a => (a.submitted, a.intent))
      = ys.map (fun b => (b.submitted, b.intent)))
    (hguard : ∀ a ∈ xs, Unguarded same a.intent.version.1)
    (hoffered : ∀ a ∈ xs, ∀ b ∈ ys, a.submitted = b.submitted →
      (a.effect id).wrote → (b.effect id).wrote → same a.offered b.offered)
    {first first' last last' : Option StoredRecord}
    (hfirst : Option.Rel (StoredRecord.Like same) first first')
    (hx : Chain id first xs last) (hy : Chain id first' ys last') :
    (∀ a ∈ xs, ∃ b ∈ ys, Attempt.Like same id a b) ∧
      Option.Rel (StoredRecord.Like same) last last' := by
  induction xs generalizing ys first first' with
  | nil =>
    obtain rfl : ys = [] := by simpa using hentries.symm
    obtain rfl : first = last := hx
    obtain rfl : first' = last' := hy
    exact ⟨by simp, hfirst⟩
  | cons a xs ih =>
    cases ys with
    | nil => simp at hentries
    | cons b ys =>
      simp only [List.map_cons, List.cons.injEq, Prod.mk.injEq] at hentries
      obtain ⟨⟨hsubmitted, hintent⟩, hentries⟩ := hentries
      obtain ⟨hrecord, hx⟩ := hx
      obtain ⟨hrecord', hy⟩ := hy
      -- The records before the two attempts correspond, so their effects do; this is where the
      -- guards must not be renamed.
      have hlike : Effect.Like same (a.effect id) (b.effect id) := by
        have hplan := Plan.like_make (hguard a List.mem_cons_self) id hfirst
        rw [← hrecord, ← hrecord'] at hplan hfirst
        have heffect := Plan.like_effect hplan (RecordTable.keep τ) hfirst
          (v := a.offered) (w := b.offered)
        have hsame := hoffered a List.mem_cons_self b List.mem_cons_self hsubmitted
        rw [Attempt.effect, Attempt.effect, ← hintent] at hsame ⊢
        exact heffect hsame
      obtain ⟨hrest, hlast⟩ := ih hentries
        (fun c hc => hguard c (List.mem_cons_of_mem _ hc))
        (fun c hc d hd => hoffered c (List.mem_cons_of_mem _ hc) d (List.mem_cons_of_mem _ hd))
        hlike.record hx hy
      refine ⟨?_, hlast⟩
      intro c hc
      rcases List.mem_cons.mp hc with rfl | hc
      · exact ⟨b, List.mem_cons_self, hsubmitted, hintent, hlike⟩
      · obtain ⟨d, hd, hcd⟩ := hrest c hc
        exact ⟨d, List.mem_cons_of_mem _ hd, hcd⟩

/-! ## One request in two orders -/

/-- The tokens of the answers to each intent in two executions, in pairs. -/
def tokenPairs (n : Nat) (answers answers' : Nat → List ExecutedResult) : List (String × String) :=
  (List.range n).flatMap (fun i =>
    ((answers i).filterMap ExecutedResult.token).zip
      ((answers' i).filterMap ExecutedResult.token))

/-- The versions are a pair of tokens, or both are one that was held before. -/
def Renamed (pairs : List (String × String)) (held : String → Option String)
    (v w : String) : Prop :=
  (v, w) ∈ pairs ∨ (v = w ∧ ∃ id, held id = some v)

/-- What was held before corresponds to itself. -/
theorem like_held (pairs : List (String × String)) (records : String → Option StoredRecord)
    (id : String) :
    Option.Rel (StoredRecord.Like (Renamed pairs (heldBy records))) (records id) (records id) := by
  cases hrecord : records id with
  | none => exact .none
  | some record =>
    refine .some ⟨rfl, Parts.Like.refl ?_⟩
    intro version hversion
    exact .inr ⟨rfl, id, by simp [heldBy, hrecord, hversion]⟩

section TwoOrders

variable {config config' : StoreConfig} {request : WriteRequest fmt} {t t' : τ}

theorem requestAttempts_steady (config : StoreConfig) (request : WriteRequest fmt)
    (hsound : SteadyTable.sound t) (hid : Identified (RecordTable.records t)) :
    ∀ attempt ∈ requestAttempts config request t, attempt.Steady :=
  (chain_attempts 0 t (config.agenda request) hsound hid).1

/-- On a steady table every intent is attempted. -/
theorem entries_requestAttempts (config : StoreConfig) (request : WriteRequest fmt)
    (hsound : SteadyTable.sound t) (hid : Identified (RecordTable.records t)) :
    (requestAttempts config request t).map (fun attempt => (attempt.submitted, attempt.intent))
      = config.agenda request := by
  apply attempts_complete
  rw [List.findSome?_eq_none_iff]
  intro attempt hattempt
  exact (requestAttempts_steady config request hsound hid attempt hattempt).step_eq.1

/-- In every order of execution the same intents are attempted at an id. -/
theorem entries_attemptsAt (config : StoreConfig) (request : WriteRequest fmt)
    (hsound : SteadyTable.sound t) (hid : Identified (RecordTable.records t)) (id : String) :
    (attemptsAt id (requestAttempts config request t)).map
        (fun attempt => (attempt.submitted, attempt.intent))
      = (WriteRequest.numbered request).filter (fun entry => entry.2.target = some id) := by
  rw [← config.agenda_target, ← entries_requestAttempts config request hsound hid, List.filter_map]
  rfl

/-- Every intent has an attempt. -/
theorem exists_attempt (config : StoreConfig) (hsound : SteadyTable.sound t)
    (hid : Identified (RecordTable.records t)) {entry : Nat × WriteIntent fmt}
    (h : entry ∈ WriteRequest.numbered request) :
    ∃ attempt ∈ requestAttempts config request t,
      attempt.submitted = entry.1 ∧ attempt.intent = entry.2 := by
  have hmem := (config.agenda_perm request).mem_iff.mpr h
  rw [← entries_requestAttempts config request hsound hid] at hmem
  obtain ⟨attempt, hattempt, rfl⟩ := List.mem_map.mp hmem
  exact ⟨attempt, hattempt, rfl, rfl⟩

/-- The results of attempts at one intent correspond if those of their steps do. -/
theorem like_results {a b : Attempt fmt τ} (ha : a.Steady) (hb : b.Steady)
    (hintent : a.intent = b.intent)
    (h : List.Forall₂ (ExecutedResult.Like same) a.step.results b.step.results) :
    List.Forall₂ (ExecutedResult.Like same) a.results b.results := by
  have htagged : List.Forall₂ (ExecutedResult.Like same)
      (a.step.results.map (fun result => result.forIntent a.place))
      (b.step.results.map (fun result => result.forIntent b.place)) := by
    rw [List.forall₂_map_left_iff, List.forall₂_map_right_iff]
    exact h.imp (fun r s hlike => hlike.forIntent a.place b.place)
  simp only [Attempt.results, ha.step_eq.1, hb.step_eq.1, hintent]
  split
  · rw [List.forall₂_map_left_iff, List.forall₂_map_right_iff]
    exact htagged.imp (fun r s hlike => hlike.withoutBody)
  · exact htagged

theorem mem_allocatedBy (hsound : SteadyTable.sound t) (hid : Identified (RecordTable.records t))
    {submitted : Nat} {token : String}
    (h : token ∈ (answersTo submitted (requestAttempts config request t)).filterMap
      ExecutedResult.token) : token ∈ allocatedBy config request t := by
  rw [allocatedBy_attempts config request hsound hid]
  obtain ⟨result, hresult, htoken⟩ := List.mem_filterMap.mp h
  obtain ⟨attempt, hattempt, hmem⟩ := List.mem_flatMap.mp hresult
  exact List.mem_filterMap.mpr ⟨result,
    List.mem_flatMap.mpr ⟨attempt, (List.mem_filter.mp hattempt).1, hmem⟩, htoken⟩

/-- A guard that neither execution allocates does not tell renamed versions apart. -/
theorem unguarded_of_notMem {guard : Option String} {pairs : List (String × String)}
    {held : String → Option String}
    (h : ∀ token, guard = some token → ∀ pair ∈ pairs, pair.1 ≠ token ∧ pair.2 ≠ token) :
    Unguarded (Renamed pairs held) guard := by
  intro v w hsame
  rcases hsame with hpair | ⟨rfl, -⟩
  · cases guard with
    | none => rfl
    | some token =>
      obtain ⟨hv, hw⟩ := h token rfl (v, w) hpair
      simp only [Resolution.mismatched, bne_iff_ne.mpr (Ne.symm hv), bne_iff_ne.mpr (Ne.symm hw)]
  · rfl

/-- The tokens that each intent was given in two executions of a request, in pairs. -/
def pairsOf (config config' : StoreConfig) (request : WriteRequest fmt) (t t' : τ) :
    List (String × String) :=
  tokenPairs request.length (fun submitted => answersTo submitted (requestAttempts config request t))
    (fun submitted => answersTo submitted (requestAttempts config' request t'))

omit [SteadyTable τ] in
/-- Attempts at one intent that both report a token report a pair. -/
theorem mem_pairsOf {a b : Attempt fmt τ} (ha : a ∈ requestAttempts config request t)
    (hb : b ∈ requestAttempts config' request t') (hsubmitted : a.submitted = b.submitted)
    {v w : String} (hv : a.results.filterMap ExecutedResult.token = [v])
    (hw : b.results.filterMap ExecutedResult.token = [w]) :
    (v, w) ∈ pairsOf config config' request t t' := by
  refine List.mem_flatMap.mpr ⟨a.submitted, List.mem_range.mpr (submitted_lt ha), ?_⟩
  dsimp only
  rw [answersTo_eq_results ha, hsubmitted, answersTo_eq_results hb, hv, hw]
  exact List.mem_singleton.mpr rfl

variable (hsound : SteadyTable.sound t) (hid : Identified (RecordTable.records t))
  (hsound' : SteadyTable.sound t') (hrecords : RecordTable.records t' = RecordTable.records t)

include hsound hid hsound' hrecords

theorem allocatedBy_of_mem_pairsOf {pair : String × String}
    (h : pair ∈ pairsOf config config' request t t') :
    pair.1 ∈ allocatedBy config request t ∧ pair.2 ∈ allocatedBy config' request t' := by
  obtain ⟨submitted, -, hzip⟩ := List.mem_flatMap.mp h
  obtain ⟨hfst, hsnd⟩ := List.of_mem_zip hzip
  exact ⟨mem_allocatedBy hsound hid hfst, mem_allocatedBy hsound' (hrecords ▸ hid) hsnd⟩

variable (hguards : ∀ intent ∈ request, ∀ guard, intent.version.1 = some guard →
    guard ∉ allocatedBy config request t ∧ guard ∉ allocatedBy config' request t')

include hguards

/-- No intent is guarded by a version that one of the executions allocates. -/
theorem unguarded_numbered {entry : Nat × WriteIntent fmt}
    (hentry : entry ∈ WriteRequest.numbered request) (held : String → Option String) :
    Unguarded (Renamed (pairsOf config config' request t t') held) entry.2.version.1 := by
  apply unguarded_of_notMem
  intro token htoken pair hmem
  obtain ⟨⟨intent, place⟩, hintent, rfl⟩ := List.mem_map.mp hentry
  have hversion : intent.version.1 = some token := by
    simpa [WriteIntent.version] using htoken
  have hmem' : intent ∈ request :=
    List.mem_of_getElem? (List.mem_zipIdx_iff_getElem?.mp hintent)
  have hguard := hguards intent hmem' token hversion
  obtain ⟨hfst, hsnd⟩ := allocatedBy_of_mem_pairsOf hsound hid hsound' hrecords hmem
  exact ⟨fun heq => hguard.1 (heq ▸ hfst), fun heq => hguard.2 (heq ▸ hsnd)⟩

/-- The attempts at one id are followed side by side. -/
theorem like_attemptsAt (id : String) :
    let same := Renamed (pairsOf config config' request t t') (heldBy (RecordTable.records t))
    (∀ a ∈ attemptsAt id (requestAttempts config request t),
      ∃ b ∈ attemptsAt id (requestAttempts config' request t'), Attempt.Like same id a b) ∧
    Option.Rel (StoredRecord.Like same)
      (RecordTable.records (applyBatch t (config.arrange request).1).2 id)
      (RecordTable.records (applyBatch t' (config'.arrange request).1).2 id) := by
  intro same
  have hid' : Identified (RecordTable.records t') := hrecords ▸ hid
  have hchain := (chain_attempts 0 t (config.agenda request) hsound hid).2 id
  have hchain' := (chain_attempts 0 t' (config'.agenda request) hsound' hid').2 id
  rw [← applyBatch_arrange] at hchain hchain'
  have hentries := entries_attemptsAt config request hsound hid id
  have hentries' := entries_attemptsAt config' request hsound' hid' id
  -- Sorting is stable, so the intents for one id come in the same order in both executions.
  refine like_chain (hentries.trans hentries'.symm) ?_ ?_ ?_ hchain hchain'
  · intro a ha
    have hentry := List.mem_map_of_mem (f := fun a => (a.submitted, a.intent)) ha
    rw [hentries] at hentry
    exact unguarded_numbered hsound hid hsound' hrecords hguards (List.mem_filter.mp hentry).1 _
  · intro a ha b hb hsubmitted hwrote hwrote'
    obtain ⟨hamem, hatarget⟩ := mem_attemptsAt ha
    obtain ⟨hbmem, hbtarget⟩ := mem_attemptsAt hb
    have htoken := (requestAttempts_steady config request hsound hid a hamem).tokens hatarget
    have htoken' := (requestAttempts_steady config' request hsound' hid' b hbmem).tokens hbtarget
    rw [if_pos hwrote] at htoken
    rw [if_pos hwrote'] at htoken'
    exact .inl (mem_pairsOf hamem hbmem hsubmitted htoken htoken')
  · rw [hrecords]
    exact like_held _ _ id

/-- Every attempt has a counterpart in the other execution, with corresponding results. -/
theorem exists_counterpart {a : Attempt fmt τ} (ha : a ∈ requestAttempts config request t) :
    ∃ b ∈ requestAttempts config' request t', a.submitted = b.submitted ∧
      List.Forall₂ (ExecutedResult.Like
        (Renamed (pairsOf config config' request t t') (heldBy (RecordTable.records t))))
        a.results b.results := by
  have hid' : Identified (RecordTable.records t') := hrecords ▸ hid
  have hsteady := requestAttempts_steady config request hsound hid a ha
  cases htarget : a.intent.target with
  | none =>
    have hentry : (a.submitted, a.intent) ∈ WriteRequest.numbered request := by
      refine (config.agenda_perm request).mem_iff.mp ?_
      rw [← entries_requestAttempts config request hsound hid]
      exact List.mem_map_of_mem ha
    obtain ⟨b, hb, hsubmitted, hintent⟩ := exists_attempt config' hsound' hid' hentry
    have hsteady' := requestAttempts_steady config' request hsound' hid' b hb
    refine ⟨b, hb, hsubmitted.symm, like_results hsteady hsteady' hintent.symm ?_⟩
    rw [hsteady.results_of_none htarget, hsteady'.results_of_none (hintent ▸ htarget)]
    exact .cons ⟨rfl, rfl, rfl, .none⟩ .nil
  | some id =>
    obtain ⟨b, hbat, hlike⟩ := (like_attemptsAt hsound hid hsound' hrecords hguards id).1 a
      (List.mem_filter.mpr ⟨ha, decide_eq_true htarget⟩)
    obtain ⟨hb, hbtarget⟩ := mem_attemptsAt hbat
    have hsteady' := requestAttempts_steady config' request hsound' hid' b hb
    refine ⟨b, hb, hlike.submitted, like_results hsteady hsteady' hlike.intent ?_⟩
    rw [hsteady.results_of_target htarget, hsteady'.results_of_target hbtarget]
    exact hlike.effect.results

/-- Two executions of a request, in whatever orders, give each intent the same answers and
    leave the same records, up to versions. -/
theorem like_executions :
    let answers (submitted : Nat) := answersTo submitted (requestAttempts config request t)
    let answers' (submitted : Nat) := answersTo submitted (requestAttempts config' request t')
    let same := Renamed (tokenPairs request.length answers answers')
      (heldBy (RecordTable.records t))
    (∀ submitted < request.length,
      List.Forall₂ (ExecutedResult.Like same) (answers submitted) (answers' submitted)) ∧
    ∀ id, Option.Rel (StoredRecord.Like same)
      (RecordTable.records (applyBatch t (config.arrange request).1).2 id)
      (RecordTable.records (applyBatch t' (config'.arrange request).1).2 id) := by
  intro answers answers' same
  refine ⟨?_, fun id => (like_attemptsAt hsound hid hsound' hrecords hguards id).2⟩
  intro submitted hsubmitted
  obtain ⟨entry, hentry, rfl⟩ : ∃ entry ∈ WriteRequest.numbered request, entry.1 = submitted := by
    rw [← List.mem_range, ← WriteRequest.map_fst_numbered] at hsubmitted
    exact List.mem_map.mp hsubmitted
  obtain ⟨a, ha, hasubmitted, -⟩ := exists_attempt config hsound hid hentry
  obtain ⟨b, hb, hbsubmitted, hlike⟩ :=
    exists_counterpart hsound hid hsound' hrecords hguards ha
  have hanswers : answers entry.1 = a.results := hasubmitted ▸ answersTo_eq_results ha
  have hanswers' : answers' entry.1 = b.results := by
    rw [← hasubmitted, hbsubmitted]
    exact answersTo_eq_results hb
  rw [hanswers, hanswers']
  exact hlike

end TwoOrders

end Batch

end FeatureStore
