import Mathlib.Algebra.BigOperators.Group.List.Basic
import Mathlib.Algebra.GroupWithZero.Nat
import Mathlib.Data.List.Basic

/-!
# Making room in a counted store

A store of bounded total size keeps a counter of what it holds.  To make room it
drops entries, one after the other in an order of its own, and takes their sizes
off the counter, until the counter says that the new entry fits.  The counter is
not checked against the entries, so it may ask for more than there is to drop.
-/

namespace CntPeer.Foundation

variable {α : Type*} (size : α → Nat) (limit need : Nat)

def total (l : List α) : Nat := (l.map size).sum

/-- Drop entries from the front until `need` more fits; `none` when there is
none left to drop. -/
def evict : Int → List α → Option (Int × List α)
  | n, [] => if limit < n + need then none else some (n, [])
  | n, e :: rest =>
      if limit < n + need then evict (n - size e) rest
      else some (n, e :: rest)

variable {size limit need} {l kept : List α} {n n' : Int}

@[simp] theorem total_nil : total size ([] : List α) = 0 := rfl

@[simp] theorem total_cons (e : α) (l : List α) :
    total size (e :: l) = size e + total size l := by
  simp [total]

@[simp] theorem total_append (l l' : List α) :
    total size (l ++ l') = total size l + total size l' := by
  simp [total]

theorem total_perm {l' : List α} (h : l.Perm l') :
    total size l = total size l' :=
  (h.map size).sum_eq

theorem evict_eq_some (h : evict size limit need n l = some (n', kept)) :
    ∃ dropped, l = dropped ++ kept ∧ n' = n - total size dropped ∧
      n' + need ≤ limit := by
  induction l generalizing n with
  | nil =>
      simp only [evict] at h
      split at h
      · contradiction
      · cases h
        exact ⟨[], rfl, by simp, by omega⟩
  | cons e rest ih =>
      simp only [evict] at h
      split at h
      · obtain ⟨dropped, hl, hn, hroom⟩ := ih h
        refine ⟨e :: dropped, by rw [hl]; rfl, ?_, hroom⟩
        rw [hn, total_cons]
        omega
      · cases h
        exact ⟨[], rfl, by simp, by omega⟩

theorem evict_exact (hneed : need ≤ limit) (l : List α) :
    ∃ kept, evict size limit need (total size l) l =
      some ((total size kept : Int), kept) := by
  induction l with
  | nil => exact ⟨[], by simp [evict, hneed]⟩
  | cons e rest ih =>
      simp only [evict]
      split
      · obtain ⟨kept, hkept⟩ := ih
        refine ⟨kept, ?_⟩
        rw [← hkept, total_cons]
        congr 1
        omega
      · exact ⟨_, rfl⟩

theorem evict_room (h : n + need ≤ limit) :
    evict size limit need n l = some (n, l) := by
  have hroom : ¬limit < n + need := by omega
  cases l with
  | nil => exact if_neg hroom
  | cons e rest => exact if_neg hroom

theorem evict_nil_eq_none (h : limit < n + need) : evict size limit need n [] = none :=
  if_pos h

theorem dropped_of_evict (h : evict size limit need n l = some (n', kept))
    {gone : α → Prop}
    (hgone : ∀ pre e post, l = pre ++ e :: post → gone e →
      (limit : Int) < n + need - total size pre) :
    ∀ e ∈ kept, ¬gone e := by
  induction l generalizing n with
  | nil =>
      simp only [evict] at h
      split at h
      · contradiction
      · cases h
        intro e he
        cases he
  | cons a rest ih =>
      simp only [evict] at h
      split at h
      · refine ih h fun pre e post hl he => ?_
        have hlt := hgone (a :: pre) e post (by rw [hl]; rfl) he
        rw [total_cons] at hlt
        omega
      · cases h
        intro e he hg
        obtain ⟨pre, post, hl⟩ := List.append_of_mem he
        have hlt := hgone pre e post hl hg
        omega

end CntPeer.Foundation
