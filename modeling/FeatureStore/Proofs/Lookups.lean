-- SUMMARY: An ascending list of entries is determined by its lookups.
import FeatureStore.Keyed
import Mathlib.Data.List.Forall2
import Mathlib.Order.Basic
import Mathlib.Data.Option.Basic

/-!
# Lookups

Two keyed lists whose keys ascend have corresponding entries, one by one, as soon as every
key is looked up alike in both: each of the two first keys is found in the other list, so
neither is below the other, and so on with the rest.
-/

namespace FeatureStore

/-! ## Lookups that correspond -/

section Rel

variable {α β γ : Type} {R S : α → β → Prop} {x : Option α} {y : Option β}

theorem map_eq_of_rel (h : Option.Rel R x y) {f : α → γ} {g : β → γ}
    (hfg : ∀ a b, R a b → f a = g b) : x.map f = y.map g := by
  cases h with
  | some hab => exact congrArg some (hfg _ _ hab)
  | none => rfl

theorem isSome_of_rel (h : Option.Rel R x y) : x.isSome = y.isSome := by
  cases h <;> rfl

theorem rel_imp (h : Option.Rel R x y) (himp : ∀ a b, x = some a → R a b → S a b) :
    Option.Rel S x y := by
  cases h with
  | some hab => exact .some (himp _ _ rfl hab)
  | none => exact .none

end Rel

/-! ## Ascending lists -/

namespace Keyed

variable {α β : Type}

/-- A key below all keys of a list is not found. -/
theorem find?_eq_none {key : String} {map : Keyed α} (h : ∀ entry ∈ map, key < entry.1) :
    map.find? key = none := by
  induction map with
  | nil => rfl
  | cons head rest ih =>
    have hne : head.1 ≠ key := fun heq =>
      String.lt_irrefl key (heq ▸ h head List.mem_cons_self)
    rw [find?, if_neg hne]
    exact ih (fun entry hmem => h entry (List.mem_cons_of_mem _ hmem))

/-- A key that is found is not below the first one. -/
theorem not_lt_of_find? {entry : String × α} {rest : Keyed α}
    (h : Keyed.Ascending (entry :: rest)) {key : String}
    (hfound : (find? key (entry :: rest)).isSome) : ¬ key < entry.1 := by
  intro hlt
  have hbelow : ∀ other ∈ entry :: rest, key < other.1 := by
    intro other hmem
    rcases List.mem_cons.mp hmem with rfl | hmem
    · exact hlt
    · exact String.lt_trans hlt ((List.pairwise_cons.mp h).1 other hmem)
  rw [find?_eq_none hbelow] at hfound
  cases hfound

theorem find?_head (entry : String × α) (rest : Keyed α) :
    find? entry.1 (entry :: rest) = some entry.2 := if_pos rfl

/-- An entry of an ascending list is found under its key, and only such entries are found. -/
theorem find?_eq_some_iff {map : Keyed α} (h : map.Ascending) {key : String} {value : α} :
    map.find? key = some value ↔ (key, value) ∈ map := by
  induction map with
  | nil => simp
  | cons head rest ih =>
    obtain ⟨hhead, hrest⟩ := List.pairwise_cons.mp h
    obtain ⟨k, v⟩ := head
    by_cases hkey : k = key
    · subst hkey
      have hlater : (k, value) ∉ rest := fun hmem => String.lt_irrefl k (hhead _ hmem)
      simp [find?, hlater, eq_comm]
    · simp [find?, hkey, Ne.symm hkey, ih hrest]

/-- An ascending list has one entry for each of its keys. -/
theorem filter_key {map : Keyed α} (h : map.Ascending) {key : String} {value : α}
    (hmem : (key, value) ∈ map) : map.filter (fun entry => entry.1 = key) = [(key, value)] := by
  induction map with
  | nil => cases hmem
  | cons head rest ih =>
    obtain ⟨hhead, hrest⟩ := List.pairwise_cons.mp h
    rcases List.mem_cons.mp hmem with rfl | hmem
    · have hothers : rest.filter (fun entry => entry.1 = key) = [] := by
        rw [List.filter_eq_nil_iff]
        intro entry hentry hkey
        exact String.lt_irrefl key (of_decide_eq_true hkey ▸ hhead entry hentry)
      rw [List.filter_cons_of_pos (by simp), hothers]
    · have hne : head.1 ≠ key := fun heq =>
        String.lt_irrefl key (heq ▸ hhead (key, value) hmem)
      rw [List.filter_cons_of_neg (by simpa using hne), ih hrest hmem]

/-- Ascending lists whose lookups correspond have corresponding entries. -/
theorem forall₂_of_find? {R : String → α → β → Prop} {xs : Keyed α} {ys : Keyed β}
    (hxs : xs.Ascending) (hys : ys.Ascending)
    (h : ∀ key, Option.Rel (R key) (xs.find? key) (ys.find? key)) :
    List.Forall₂ (fun x y => x.1 = y.1 ∧ R x.1 x.2 y.2) xs ys := by
  induction xs generalizing ys with
  | nil =>
    cases ys with
    | nil => exact .nil
    | cons y ys =>
      have hhead := isSome_of_rel (h y.1)
      rw [find?_head] at hhead
      cases hhead
  | cons x xs ih =>
    cases ys with
    | nil =>
      have hhead := isSome_of_rel (h x.1)
      rw [find?_head] at hhead
      cases hhead
    | cons y ys =>
      -- Each of the two first keys is found in the other list, so neither is the lower one.
      have hkeys : x.1 = y.1 := by
        have hy : (find? y.1 (x :: xs)).isSome := by rw [isSome_of_rel (h y.1), find?_head]; rfl
        have hx : (find? x.1 (y :: ys)).isSome := by rw [← isSome_of_rel (h x.1), find?_head]; rfl
        exact String.le_antisymm (String.not_lt.mp (not_lt_of_find? hxs hy))
          (String.not_lt.mp (not_lt_of_find? hys hx))
      have hvalues : R x.1 x.2 y.2 := by
        have hhead := h x.1
        rw [find?_head, show find? x.1 (y :: ys) = some y.2 from if_pos hkeys.symm] at hhead
        cases hhead with
        | some hvalue => exact hvalue
      obtain ⟨hx, hxs⟩ := List.pairwise_cons.mp hxs
      obtain ⟨hy, hys⟩ := List.pairwise_cons.mp hys
      have hrest : ∀ key, Option.Rel (R key) (Keyed.find? key xs) (Keyed.find? key ys) := by
        intro key
        by_cases hkey : x.1 = key
        · subst hkey
          rw [find?_eq_none hx, hkeys, find?_eq_none hy]
          exact .none
        · have hrel := h key
          rwa [find?, if_neg hkey, find?, if_neg (hkeys ▸ hkey)] at hrel
      exact .cons ⟨hkeys, hvalues⟩ (ih hxs hys hrest)

/-- Ascending lists with the same lookups are the same. -/
theorem eq_of_find? {xs ys : Keyed α} (hxs : xs.Ascending) (hys : ys.Ascending)
    (h : ∀ key, xs.find? key = ys.find? key) : xs = ys := by
  have hsame : ∀ key, Option.Rel (fun a b => a = b) (xs.find? key) (ys.find? key) := by
    intro key
    rw [h key]
    cases ys.find? key with
    | none => exact .none
    | some value => exact .some rfl
  rw [← List.forall₂_eq_eq_eq]
  exact (forall₂_of_find? hxs hys hsame).imp fun _ _ hxy => Prod.ext hxy.1 hxy.2

theorem nodup_of_ascending {map : Keyed α} (h : map.Ascending) : (map.map Prod.fst).Nodup :=
  List.pairwise_map.mpr (h.imp fun hlt => String.ne_of_lt hlt)

/-! ## Pairs that are put into order -/

theorem find?_of_notMem {key : String} {pairs : List (String × α)}
    (h : key ∉ pairs.map Prod.fst) : find? key pairs = none := by
  induction pairs with
  | nil => rfl
  | cons pair rest ih =>
    rw [List.map_cons, List.mem_cons, not_or] at h
    rw [find?, if_neg (Ne.symm h.1), ih h.2]

/-- Of pairs whose keys differ, each is found where it is put. -/
theorem find?_ofList {pairs : List (String × α)} (h : (pairs.map Prod.fst).Nodup) (key : String) :
    find? key (ofList pairs) = find? key pairs := by
  have hfold : ∀ before : Keyed α,
      find? key (pairs.foldl (fun map pair => map.insert pair.1 pair.2) before)
        = (find? key pairs).or (find? key before) := by
    induction pairs with
    | nil => simp
    | cons pair rest ih =>
      intro before
      obtain ⟨hhead, hrest⟩ := List.nodup_cons.mp h
      rw [List.foldl_cons, ih hrest, find?_insert, find?]
      by_cases hkey : pair.1 = key
      · subst hkey
        rw [if_pos rfl, if_pos rfl, find?_of_notMem hhead, Option.none_or, Option.some_or]
      · rw [if_neg hkey, if_neg hkey]
  rw [ofList, hfold, find?_nil, Option.or_none]

theorem ascending_ofList (pairs : List (String × α)) : (ofList pairs).Ascending := by
  have hfold : ∀ before : Keyed α, before.Ascending →
      (pairs.foldl (fun map pair => map.insert pair.1 pair.2) before).Ascending := by
    induction pairs with
    | nil => exact fun _ hbefore => hbefore
    | cons pair rest ih => exact fun _ hbefore => ih _ (ascending_insert hbefore pair.1 pair.2)
  exact hfold [] .nil

/-- Putting pairs into order adds none. -/
theorem mem_of_mem_ofList {pairs : List (String × α)} {entry : String × α}
    (h : entry ∈ ofList pairs) : entry ∈ pairs := by
  have hfold : ∀ before : Keyed α,
      entry ∈ pairs.foldl (fun map pair => map.insert pair.1 pair.2) before →
        entry ∈ before ∨ entry ∈ pairs := by
    clear h
    induction pairs with
    | nil => exact fun _ hmem => .inl hmem
    | cons pair rest ih =>
      intro before hmem
      rcases ih _ hmem with hbefore | hrest
      · rcases mem_insert hbefore with rfl | hbefore
        · exact .inr List.mem_cons_self
        · exact .inl hbefore
      · exact .inr (List.mem_cons_of_mem pair hrest)
  exact (hfold [] h).resolve_left (List.not_mem_nil)

end Keyed

end FeatureStore
