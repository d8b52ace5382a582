import Mathlib.Data.Finset.Card
import Mathlib.Data.Finset.SDiff
import CntPeer.Foundation.SortedVec

/-!
# Strict sorted vectors as finite sets

The keys of a strict sorted vector form a finite set, and each operation is the
operation of finite sets on it.
-/

namespace CntPeer.Foundation.SortedVec

variable {α : Type*} {key : α → Nat} {v w : SortedVec key} {x : α} {k : Nat}

def keys (v : SortedVec key) : Finset Nat := (v.items.map key).toFinset

theorem mem_keys : k ∈ v.keys ↔ ∃ y ∈ v.items, key y = k := by
  simp [keys]

@[simp] theorem keys_empty : (empty : SortedVec key).keys = ∅ := rfl

theorem contains_iff_mem_keys : v.contains x = true ↔ key x ∈ v.keys :=
  (v.contains_iff x).trans mem_keys.symm

theorem contains_eq_false_iff : v.contains x = false ↔ key x ∉ v.keys := by
  rw [← contains_iff_mem_keys, Bool.not_eq_true]

theorem keys_add : (v.add x).keys = insert (key x) v.keys := by
  ext k
  rw [mem_keys, Finset.mem_insert, mem_keys]
  constructor
  · rintro ⟨y, hy, rfl⟩
    rcases mem_add.mp hy with rfl | hy
    · exact .inl rfl
    · exact .inr ⟨y, hy, rfl⟩
  · rintro (rfl | ⟨y, hy, rfl⟩)
    · exact ⟨x, mem_add.mpr (.inl rfl), rfl⟩
    · exact ⟨y, mem_add.mpr (.inr hy), rfl⟩

theorem Strict.keys_remove (hv : v.Strict) (hx : v.contains x = true) :
    (v.remove x).keys = v.keys.erase (key x) := by
  ext k
  rw [mem_keys, Finset.mem_erase, mem_keys]
  constructor
  · rintro ⟨y, hy, rfl⟩
    obtain ⟨hy, hne⟩ := (hv.mem_remove hx).mp hy
    exact ⟨hne, y, hy, rfl⟩
  · rintro ⟨hne, y, hy, rfl⟩
    exact ⟨y, (hv.mem_remove hx).mpr ⟨hy, hne⟩, rfl⟩

theorem Strict.keys_difference (hv : v.Strict) :
    (v.difference w).keys = v.keys \ w.keys := by
  ext k
  rw [mem_keys, Finset.mem_sdiff, mem_keys, mem_keys]
  constructor
  · rintro ⟨y, hy, rfl⟩
    obtain ⟨hy, hne⟩ := (hv.mem_difference w).mp hy
    refine ⟨⟨y, hy, rfl⟩, ?_⟩
    rintro ⟨z, hz, hk⟩
    exact hne z hz hk
  · rintro ⟨⟨y, hy, rfl⟩, hno⟩
    exact ⟨y, (hv.mem_difference w).mpr
      ⟨hy, fun z hz hk => hno ⟨z, hz, hk⟩⟩, rfl⟩

theorem Strict.difference (hv : v.Strict) : (v.difference w).Strict :=
  List.Pairwise.sublist (differenceItems_sublist _ _) hv

theorem Strict.nodup (hv : v.Strict) : (v.items.map key).Nodup := by
  rw [List.Nodup, List.pairwise_map]
  exact List.Pairwise.imp (fun h => h.ne) hv

theorem Strict.card_keys (hv : v.Strict) : v.keys.card = v.size := by
  rw [keys, List.toFinset_card_of_nodup hv.nodup, List.length_map]
  rfl

end CntPeer.Foundation.SortedVec
