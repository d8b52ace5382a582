import Mathlib.Data.List.Count
import Mathlib.Order.Defs.Unbundled
import Mathlib.Order.Lattice

/-!
# Partial selection

Rearranging a list so that its first `n` elements come before the others in some
order, without sorting either part.  Whatever the order leaves open, the number
of elements of an initial class among the first `n` is determined.
-/

namespace CntPeer.Foundation

variable {α : Type*}

/-- Nothing behind position `n` of the arrangement precedes anything before it. -/
def Selects (lt : α → α → Bool) (n : Nat) (l order : List α) : Prop :=
  order.Perm l ∧ ∀ a ∈ order.take n, ∀ b ∈ order.drop n, lt b a = false

def Initial (lt : α → α → Bool) (P : α → Bool) : Prop :=
  ∀ a b, P b = true → P a = false → lt b a = true

variable {lt : α → α → Bool} {P : α → Bool} {n : Nat} {l order : List α}

namespace Selects

theorem mem_iff (h : Selects lt n l order) {a : α} :
    a ∈ l ↔ a ∈ order.take n ∨ a ∈ order.drop n := by
  rw [← h.1.mem_iff, ← List.mem_append, List.take_append_drop]

theorem countP_add (h : Selects lt n l order) :
    (order.take n).countP P + (order.drop n).countP P = l.countP P := by
  rw [← List.countP_append, List.take_append_drop, h.1.countP_eq]

theorem countP_take (h : Selects lt n l order) (hP : Initial lt P) :
    (order.take n).countP P = min n (l.countP P) := by
  have hsum := h.countP_add (P := P)
  have hlength := List.countP_le_length (l := order.take n) (p := P)
  rw [List.length_take] at hlength
  by_cases hall : ∀ a ∈ order.take n, P a = true
  · have hfull := List.countP_eq_length.mpr hall
    rw [List.length_take] at hfull
    rcases Nat.le_total n order.length with hn | hn
    · omega
    · have hnone : order.drop n = [] := List.drop_eq_nil_of_le hn
      rw [hnone, List.countP_nil] at hsum
      omega
  · obtain ⟨a, ha, hPa⟩ : ∃ a ∈ order.take n, P a = false := by
      simpa using hall
    have hnone : (order.drop n).countP P = 0 := by
      refine List.countP_eq_zero.mpr fun b hb hPb => ?_
      have hlt := h.2 a ha b hb
      rw [hP a b hPb hPa] at hlt
      cases hlt
    omega

/-- An element that was left out is in no class that did not fill the first
part. -/
theorem all_taken (h : Selects lt n l order) (hP : Initial lt P) {x : α}
    (hx : x ∈ order.drop n) (hPx : P x = true) :
    ∀ a ∈ order.take n, P a = true := by
  intro a ha
  cases hPa : P a with
  | true => rfl
  | false =>
      have hlt := h.2 a ha x hx
      rw [hP a x hPx hPa] at hlt
      cases hlt

end Selects

theorem strictWeakOrder_of_rank {β : Type*} [LinearOrder β] (rank : α → β)
    (h : ∀ a b, lt a b = true ↔ rank a < rank b) :
    IsStrictWeakOrder α fun a b => lt a b = true where
  irrefl a := by
    rw [h]
    exact lt_irrefl _
  trans a b c hab hbc := (h a c).mpr (((h a b).mp hab).trans ((h b c).mp hbc))
  incomp_trans a b c := by
    simp only [h, not_lt]
    rintro ⟨hba, hab⟩ ⟨hcb, hbc⟩
    exact ⟨hcb.trans hba, hab.trans hbc⟩

end CntPeer.Foundation
