import Mathlib.Data.List.Sort
import Mathlib.Logic.Function.Basic
import Mathlib.Order.Defs.LinearOrder

/-!
# Updates of a sorted table

A table is a list of keys and values whose keys ascend; an update makes of what is at its key something
else, or nothing. Merging a table with updates whose keys ascend (`merge`) gives the table of the updated
map (`lookup_merge`), and its keys ascend again (`sorted_merge`).
-/

namespace SortedUpdate

open List Option

variable {K α : Type*} [LinearOrder K]

/-- The keys of a list ascend. -/
def Sorted {β : Type*} (l : List (K × β)) : Prop := l.Pairwise fun a b => a.1 < b.1

/-- An update: its key, and what it makes of what is there. -/
abbrev Update (K α : Type*) := K × (Option α → Option α)

/-- A map after some updates. -/
def applyAll (μ : K → Option α) (us : List (Update K α)) : K → Option α :=
  us.foldl (fun μ u => Function.update μ u.1 (u.2 (μ u.1))) μ

/-- The entry of a key, if there is one. -/
def entry (k : K) (v : Option α) : List (K × α) := (v.map (k, ·)).toList

/-- What is at a key, where the keys in front of it are gone, and the entries behind it. -/
def hit (k : K) : List (K × α) → Option α × List (K × α)
  | [] => (none, [])
  | e :: l => if e.1 = k then (some e.2, l) else (none, e :: l)

/-- A table merged with updates. -/
def merge : List (K × α) → List (Update K α) → List (K × α)
  | l, [] => l
  | l, u :: us =>
    l.takeWhile (·.1 < u.1) ++ entry u.1 (u.2 (hit u.1 (l.dropWhile (·.1 < u.1))).1) ++
      merge (hit u.1 (l.dropWhile (·.1 < u.1))).2 us

variable {l front back : List (K × α)} {us : List (Update K α)} {u : Update K α} {k k' : K} {v : Option α}

theorem applyAll_apply (μ : K → Option α) (us : List (Update K α)) (k : K) :
    applyAll μ us k = us.foldl (fun v u => if u.1 = k then u.2 v else v) (μ k) := by
  induction us generalizing μ with
  | nil => rfl
  | cons u us ih =>
    have hhead : Function.update μ u.1 (u.2 (μ u.1)) k = if u.1 = k then u.2 (μ k) else μ k := by
      by_cases hk : u.1 = k
      · subst hk
        rw [if_pos rfl, Function.update_self]
      · rw [if_neg hk, Function.update_of_ne (Ne.symm hk)]
    rw [foldl_cons, ← hhead]
    exact ih _

/-- Updates at other keys leave what is at a key. -/
theorem applyAll_of_ne {μ : K → Option α} (hne : ∀ u ∈ us, u.1 ≠ k) : applyAll μ us k = μ k := by
  rw [applyAll_apply]
  induction us with
  | nil => rfl
  | cons u us ih =>
    rw [foldl_cons, if_neg (hne u (.head _))]
    exact ih fun u hu => hne u (.tail _ hu)

/-- What is at a key afterwards depends on what was there only. -/
theorem applyAll_congr {μ ν : K → Option α} (h : μ k = ν k) : applyAll μ us k = applyAll ν us k := by
  rw [applyAll_apply, applyAll_apply, h]

/-- A table is what is in front of a key, the entry of the key, and what is behind it. -/
structure Split (l : List (K × α)) (k : K) (front : List (K × α)) (v : Option α) (back : List (K × α)) :
    Prop where
  eq : l = front ++ entry k v ++ back
  front_lt : ∀ e ∈ front, e.1 < k
  lt_back : ∀ e ∈ back, k < e.1

omit [LinearOrder K] in
theorem mem_entry {e : K × α} (he : e ∈ entry k v) : e.1 = k := by
  cases v with
  | none => cases he
  | some a => exact congrArg Prod.fst (mem_singleton.mp he)

theorem lookup_of_ne (hne : ∀ e ∈ l, e.1 ≠ k) : l.lookup k = none := by
  rw [lookup_eq_none_iff]
  exact fun e he => bne_iff_ne.mpr (hne e he).symm

theorem lookup_entry (k : K) (v : Option α) : (entry k v).lookup k = v := by
  cases v with
  | none => rfl
  | some a => exact lookup_cons_self

namespace Split

theorem lookup_self (hs : Split l k front v back) : l.lookup k = v := by
  rw [hs.eq, lookup_append, lookup_append, lookup_of_ne fun e he => (hs.front_lt e he).ne,
    lookup_of_ne fun e he => (hs.lt_back e he).ne', lookup_entry, none_or, or_none]

theorem lookup_of_lt (hs : Split l k front v back) (hk : k' < k) : l.lookup k' = front.lookup k' := by
  have hentry : (entry k v).lookup k' = none := lookup_of_ne fun e he => by
    rw [mem_entry he]
    exact hk.ne'
  have hback : back.lookup k' = none := lookup_of_ne fun e he => (hk.trans (hs.lt_back e he)).ne'
  rw [hs.eq, lookup_append, lookup_append, hentry, hback, or_none, or_none]

theorem lookup_of_gt (hs : Split l k front v back) (hk : k < k') : l.lookup k' = back.lookup k' := by
  have hentry : (entry k v).lookup k' = none := lookup_of_ne fun e he => by
    rw [mem_entry he]
    exact hk.ne
  have hfront : front.lookup k' = none := lookup_of_ne fun e he => ((hs.front_lt e he).trans hk).ne
  rw [hs.eq, lookup_append, lookup_append, hentry, hfront, none_or, none_or]

theorem sorted_front (hs : Split l k front v back) (hl : Sorted l) : Sorted front := by
  rw [Sorted, hs.eq, append_assoc] at hl
  exact (pairwise_append.mp hl).1

theorem sorted_back (hs : Split l k front v back) (hl : Sorted l) : Sorted back := by
  rw [Sorted, hs.eq] at hl
  exact (pairwise_append.mp hl).2.1

theorem sorted (hs : Split l k front v back) (hfront : Sorted front) (hback : Sorted back) : Sorted l := by
  rw [Sorted, hs.eq, pairwise_append, pairwise_append]
  refine ⟨⟨hfront, ?_, fun a ha b hb => mem_entry hb ▸ hs.front_lt a ha⟩, hback, fun a ha b hb => ?_⟩
  · cases v with
    | none => exact .nil
    | some a => exact pairwise_singleton _ _
  · rcases mem_append.mp ha with ha | ha
    · exact (hs.front_lt a ha).trans (hs.lt_back b hb)
    · exact mem_entry ha ▸ hs.lt_back b hb

end Split

theorem hit_cons_self (e : K × α) (l : List (K × α)) : hit e.1 (e :: l) = (some e.2, l) := if_pos rfl

theorem hit_cons_of_ne {e : K × α} (hk : e.1 ≠ k) (l : List (K × α)) : hit k (e :: l) = (none, e :: l) := if_neg hk

theorem hit_of_none (hk : (hit k l).1 = none) : (hit k l).2 = l := by
  cases l with
  | nil => rfl
  | cons e l =>
    by_cases he : e.1 = k
    · subst he
      rw [hit_cons_self] at hk
      cases hk
    · rw [hit_cons_of_ne he]

/-- A sorted table is split as the merge splits it. -/
theorem split_hit (hl : Sorted l) (k : K) : Split l k (l.takeWhile (·.1 < k))
    (hit k (l.dropWhile (·.1 < k))).1 (hit k (l.dropWhile (·.1 < k))).2 := by
  induction l with
  | nil => exact ⟨rfl, nofun, nofun⟩
  | cons e l ih =>
    obtain ⟨hlt, hl'⟩ := pairwise_cons.mp hl
    by_cases he : e.1 < k
    · simp only [takeWhile_cons, dropWhile_cons, decide_eq_true he, if_true]
      obtain ⟨heq, hfront, hback⟩ := ih hl'
      exact ⟨congrArg (e :: ·) heq, forall_mem_cons.mpr ⟨he, hfront⟩, hback⟩
    · simp only [takeWhile_cons, dropWhile_cons, decide_eq_false he, Bool.false_eq_true, if_false]
      by_cases hk : e.1 = k
      · subst hk
        rw [hit_cons_self]
        exact ⟨rfl, nofun, hlt⟩
      · have hke : k < e.1 := lt_of_le_of_ne (not_lt.mp he) (Ne.symm hk)
        rw [hit_cons_of_ne hk]
        exact ⟨rfl, nofun, forall_mem_cons.mpr ⟨hke, fun e' he' => hke.trans (hlt e' he')⟩⟩

theorem hit_subset (k : K) (l : List (K × α)) : (hit k l).2 ⊆ l := by
  cases l with
  | nil => exact List.Subset.refl _
  | cons e l =>
    by_cases hk : e.1 = k
    · subst hk
      rw [hit_cons_self]
      exact subset_cons_self e l
    · rw [hit_cons_of_ne hk]
      exact List.Subset.refl _

/-- No key is new but those of updates. -/
theorem mem_merge {e : K × α} (he : e ∈ merge l us) : e ∈ l ∨ ∃ u ∈ us, u.1 = e.1 := by
  induction us generalizing l with
  | nil => exact .inl he
  | cons u us ih =>
    rw [merge, mem_append, mem_append] at he
    rcases he with (he | he) | he
    · exact .inl ((takeWhile_sublist _).subset he)
    · exact .inr ⟨u, .head _, (mem_entry he).symm⟩
    · rcases ih he with he | ⟨u', hu', heq⟩
      · exact .inl ((dropWhile_sublist _).subset (hit_subset u.1 _ he))
      · exact .inr ⟨u', .tail _ hu', heq⟩

/-- A merged table is split at the key of the first update. -/
theorem split_merge (hl : Sorted l) (hus : Sorted (u :: us)) : Split (merge l (u :: us)) u.1
    (l.takeWhile (·.1 < u.1)) (u.2 (l.lookup u.1)) (merge (hit u.1 (l.dropWhile (·.1 < u.1))).2 us) := by
  have hs := split_hit hl u.1
  refine ⟨by rw [hs.lookup_self, merge], hs.front_lt, fun e he => ?_⟩
  rcases mem_merge he with he | ⟨u', hu', heq⟩
  · exact hs.lt_back e he
  · exact heq ▸ (pairwise_cons.mp hus).1 u' hu'

theorem sorted_merge (hl : Sorted l) (hus : Sorted us) : Sorted (merge l us) := by
  induction us generalizing l with
  | nil => exact hl
  | cons u us ih =>
    have hs := split_hit hl u.1
    exact (split_merge hl hus).sorted (hs.sorted_front hl) (ih (hs.sorted_back hl) (pairwise_cons.mp hus).2)

/-- The merged table is that of the updated map. -/
theorem lookup_merge (hl : Sorted l) (hus : Sorted us) (k : K) :
    (merge l us).lookup k = applyAll (l.lookup ·) us k := by
  induction us generalizing l with
  | nil => rfl
  | cons u us ih =>
    have hs := split_hit hl u.1
    have hm := split_merge hl hus
    obtain ⟨hlt, hus'⟩ := pairwise_cons.mp hus
    have happly : applyAll (l.lookup ·) (u :: us) k =
        applyAll (Function.update (l.lookup ·) u.1 (u.2 (l.lookup u.1))) us k := rfl
    rw [happly]
    rcases lt_trichotomy k u.1 with hk | rfl | hk
    · rw [hm.lookup_of_lt hk, applyAll_of_ne fun u' hu' => (hk.trans (hlt u' hu')).ne', Function.update_of_ne hk.ne,
        hs.lookup_of_lt hk]
    · rw [hm.lookup_self, applyAll_of_ne fun u' hu' => (hlt u' hu').ne', Function.update_self]
    · rw [hm.lookup_of_gt hk, ih (hs.sorted_back hl) hus']
      exact applyAll_congr (by rw [Function.update_of_ne hk.ne', hs.lookup_of_gt hk])

end SortedUpdate
