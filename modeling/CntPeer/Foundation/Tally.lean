import Mathlib.Algebra.BigOperators.Group.Finset.Basic
import Mathlib.Algebra.Order.BigOperators.Group.Finset

/-!
# Counting over threads

The threads of a system stand at places; all but finitely many stand where
nothing is counted.  A tally adds up a weight of the places, and a step of one
thread changes it by what that thread's place counts.
-/

namespace CntPeer.Foundation

variable {θ β : Type*} {w : β → Nat} {place : θ → β} {n : Nat}

/-- The weights of the places of all threads add up to `n`. -/
def Tally (w : β → Nat) (place : θ → β) (n : Nat) : Prop :=
  ∃ F : Finset θ, (∀ t, t ∉ F → w (place t) = 0) ∧
    n = F.sum fun t => w (place t)

theorem tally_zero (h : ∀ t, w (place t) = 0) : Tally w place 0 :=
  ⟨∅, fun t _ => h t, by simp⟩

theorem Tally.exists_pos (h : Tally w place n) (hn : 0 < n) :
    ∃ t, 0 < w (place t) := by
  obtain ⟨F, -, rfl⟩ := h
  obtain ⟨t, -, ht⟩ := Finset.sum_pos_iff.mp hn
  exact ⟨t, ht⟩

/-- One thread moves: its old weight leaves the tally, its new one enters. -/
theorem Tally.update [DecidableEq θ] (h : Tally w place n) (t : θ) (b : β) :
    ∃ m, Tally w (Function.update place t b) m ∧ m + w (place t) = n + w b := by
  obtain ⟨F, hF, rfl⟩ := h
  have hrest : ∀ u, u ≠ t →
      w (Function.update place t b u) = w (place u) := by
    intro u hu
    rw [Function.update_of_ne hu]
  have hsame : ((insert t F).erase t).sum
      (fun u => w (Function.update place t b u)) =
        ((insert t F).erase t).sum fun u => w (place u) := by
    apply Finset.sum_congr rfl
    intro u hu
    exact hrest u (Finset.ne_of_mem_erase hu)
  have hbefore : (insert t F).sum (fun u => w (place u)) =
      F.sum fun u => w (place u) := by
    by_cases ht : t ∈ F
    · rw [Finset.insert_eq_of_mem ht]
    · rw [Finset.sum_insert ht, hF t ht, Nat.zero_add]
  have hmem := Finset.mem_insert_self t F
  refine ⟨(insert t F).sum fun u => w (Function.update place t b u),
    ⟨insert t F, fun u hu => ?_, rfl⟩, ?_⟩
  · have hut : u ≠ t := fun he => hu (he ▸ hmem)
    rw [hrest u hut]
    exact hF u fun hin => hu (Finset.mem_insert_of_mem hin)
  · rw [← Finset.add_sum_erase _ _ hmem, hsame, Function.update_self,
      ← hbefore, ← Finset.add_sum_erase (insert t F) (fun u => w (place u)) hmem]
    omega

end CntPeer.Foundation
