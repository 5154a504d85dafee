/-
  Portcullis.Proofs.Marks — lists of marked things, told mark by mark.

  Where several rules take turns, everything that is recorded is marked with the rule it
  belongs to. Two such records are alike if they have the same things of each mark in the same
  order (`Alike`); how the marks take turns does not count.
  - `Alike.append`, `Alike.filter`: records that are alike stay so.
  - `Alike.perm`: records that are alike hold the same things as often.
-/

import Mathlib.Data.List.Perm.Basic

namespace Portcullis

variable {ι α : Type} [DecidableEq ι]

def under (i : ι) (xs : List (ι × α)) : List α := (xs.filter fun x => decide (x.1 = i)).map Prod.snd

theorem under_append (i : ι) (xs ys : List (ι × α)) : under i (xs ++ ys) = under i xs ++ under i ys := by
  simp [under]

/-- Things that are all given one mark. -/
theorem under_map_mk (i j : ι) (l : List α) : under i (l.map (Prod.mk j)) = if j = i then l else [] := by
  unfold under
  rw [List.filter_map, List.map_map]
  by_cases h : j = i <;> simp [Function.comp_def, h]

/-- Marks that are given another name. -/
theorem under_map_some (i : ι) (xs : List (ι × α)) : under (some i) (xs.map fun x => (some x.1, x.2)) = under i xs := by
  unfold under
  rw [List.filter_map, List.map_map]
  simp [Function.comp_def]

theorem under_filter (i : ι) (p : α → Bool) (xs : List (ι × α)) :
    under i (xs.filter fun x => p x.2) = (under i xs).filter p := by
  unfold under
  rw [List.filter_filter, List.filter_map, List.filter_filter]
  simp [Bool.and_comm]

theorem count_under [DecidableEq α] (i : ι) (a : α) (xs : List (ι × α)) : (under i xs).count a = xs.count (i, a) := by
  unfold under
  rw [List.count, List.countP_map, List.countP_filter, List.count]
  apply List.countP_congr
  intro x _
  simp [Prod.ext_iff, and_comm]

/-- Whether two lists have the same things of each mark in the same order. -/
def Alike (xs ys : List (ι × α)) : Prop := ∀ i, under i xs = under i ys

variable {xs ys zs : List (ι × α)}

theorem Alike.refl (xs : List (ι × α)) : Alike xs xs := fun _ => rfl

theorem Alike.trans (h : Alike xs ys) (h' : Alike ys zs) : Alike xs zs := fun i => (h i).trans (h' i)

theorem Alike.append {xs' ys' : List (ι × α)} (h : Alike xs ys) (h' : Alike xs' ys') : Alike (xs ++ xs') (ys ++ ys') := by
  intro i
  rw [under_append, under_append, h i, h' i]

theorem Alike.filter (h : Alike xs ys) (p : α → Bool) :
    Alike (xs.filter fun x => p x.2) (ys.filter fun x => p x.2) := by
  intro i
  rw [under_filter, under_filter, h i]

theorem Alike.perm [DecidableEq α] (h : Alike xs ys) : xs.Perm ys := by
  apply List.perm_iff_count.mpr
  intro x
  obtain ⟨i, a⟩ := x
  rw [← count_under, ← count_under, h i]

end Portcullis
