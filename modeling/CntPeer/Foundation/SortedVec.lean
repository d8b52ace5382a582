import Mathlib.Data.List.TakeWhile
import Mathlib.Data.Nat.Basic
import Mathlib.Tactic.Tauto

/-!
# Vectors sorted by a key

A vector kept in ascending key order and edited at the position that
`lowerBound` finds.  Elements with equal keys are the same element for every
operation.  Sortedness is a field; strictness, which makes the vector a set, is
a property that the operations preserve under their preconditions.
-/

namespace CntPeer.Foundation

variable {α : Type*} {key : α → Nat}

structure SortedVec (key : α → Nat) where
  items : List α
  sorted : items.Pairwise fun a b => key a ≤ key b

namespace SortedVec

/-- The elements before and from the first one whose key is not below `k`. -/
def lowerBound (key : α → Nat) (k : Nat) (l : List α) : List α × List α :=
  (l.takeWhile fun y => key y < k, l.dropWhile fun y => key y < k)

theorem lowerBound_append (key : α → Nat) (k : Nat) (l : List α) :
    (lowerBound key k l).1 ++ (lowerBound key k l).2 = l :=
  List.takeWhile_append_dropWhile

theorem key_lt_of_mem_fst {k : Nat} {l : List α} {y : α}
    (h : y ∈ (lowerBound key k l).1) : key y < k := by
  simpa using List.mem_takeWhile_imp h

theorem le_key_of_mem_snd {k : Nat} {l : List α}
    (hl : l.Pairwise fun a b => key a ≤ key b) {y : α}
    (h : y ∈ (lowerBound key k l).2) : k ≤ key y := by
  induction l with
  | nil => simp [lowerBound] at h
  | cons a l ih =>
      simp only [lowerBound, List.dropWhile_cons] at h
      obtain ⟨ha, hl⟩ := List.pairwise_cons.mp hl
      split at h
      · exact ih hl h
      · rename_i hlt
        simp only [decide_eq_true_eq, not_lt] at hlt
        rcases List.mem_cons.mp h with rfl | hy
        · exact hlt
        · exact hlt.trans (ha y hy)

theorem sublist_fst (key : α → Nat) (k : Nat) (l : List α) :
    (lowerBound key k l).1.Sublist l :=
  List.takeWhile_sublist _

theorem sublist_snd (key : α → Nat) (k : Nat) (l : List α) :
    (lowerBound key k l).2.Sublist l :=
  List.dropWhile_sublist _

def empty : SortedVec key := ⟨[], .nil⟩

def size (v : SortedVec key) : Nat := v.items.length

def isEmpty (v : SortedVec key) : Bool := v.items.isEmpty

def contains (v : SortedVec key) (x : α) : Bool :=
  match (lowerBound key (key x) v.items).2 with
  | [] => false
  | y :: _ => key y == key x

/-- Insert at the lower bound; an equal element is not looked for. -/
def add (v : SortedVec key) (x : α) : SortedVec key where
  items := (lowerBound key (key x) v.items).1 ++
    x :: (lowerBound key (key x) v.items).2
  sorted := by
    have hsnd := v.sorted.sublist (sublist_snd key (key x) v.items)
    rw [List.pairwise_append, List.pairwise_cons]
    refine ⟨v.sorted.sublist (sublist_fst _ _ _),
      ⟨fun y hy => le_key_of_mem_snd v.sorted hy, hsnd⟩, ?_⟩
    intro a ha b hb
    have hax := key_lt_of_mem_fst ha
    rcases List.mem_cons.mp hb with rfl | hb
    · exact hax.le
    · exact hax.le.trans (le_key_of_mem_snd v.sorted hb)

def remove (v : SortedVec key) (x : α) : SortedVec key where
  items := (lowerBound key (key x) v.items).1 ++
    (lowerBound key (key x) v.items).2.tail
  sorted := by
    have h := v.sorted
    rw [← lowerBound_append key (key x) v.items] at h
    exact h.sublist (List.Sublist.append_left (List.tail_sublist _) _)

def differenceItems (key : α → Nat) : List α → List α → List α
  | [], _ => []
  | a :: as, bs =>
      match (lowerBound key (key a) bs).2 with
      | [] => a :: differenceItems key as []
      | b :: bs =>
          if key b = key a then differenceItems key as bs
          else a :: differenceItems key as (b :: bs)

theorem differenceItems_sublist (as : List α) :
    ∀ bs, (differenceItems key as bs).Sublist as := by
  induction as with
  | nil => intro bs; exact List.Sublist.slnil
  | cons a as ih =>
      intro bs
      unfold differenceItems
      split
      · exact (ih _).cons_cons a
      · split
        · exact (ih _).cons a
        · exact (ih _).cons_cons a

def difference (v w : SortedVec key) : SortedVec key where
  items := differenceItems key v.items w.items
  sorted := v.sorted.sublist (differenceItems_sublist _ _)

def Strict (v : SortedVec key) : Prop :=
  v.items.Pairwise fun a b => key a < key b

@[simp] theorem items_empty : (empty : SortedVec key).items = [] := rfl

theorem contains_iff (v : SortedVec key) (x : α) :
    v.contains x = true ↔ ∃ y ∈ v.items, key y = key x := by
  unfold contains
  have hmem : ∀ y ∈ v.items, key y = key x →
      y ∈ (lowerBound key (key x) v.items).2 := by
    intro y hy hk
    rw [← lowerBound_append key (key x) v.items] at hy
    rcases List.mem_append.mp hy with hy | hy
    · have := key_lt_of_mem_fst hy
      omega
    · exact hy
  cases hsnd : (lowerBound key (key x) v.items).2 with
  | nil =>
      simp only [hsnd, List.not_mem_nil] at hmem
      simpa using hmem
  | cons y rest =>
      have hsub := sublist_snd key (key x) v.items
      have hrest := v.sorted.sublist hsub
      rw [hsnd] at hmem hsub hrest
      simp only [beq_iff_eq]
      constructor
      · intro hk
        exact ⟨y, hsub.subset List.mem_cons_self, hk⟩
      · rintro ⟨z, hz, hk⟩
        have hy : key x ≤ key y :=
          le_key_of_mem_snd v.sorted (by rw [hsnd]; exact List.mem_cons_self)
        rcases List.mem_cons.mp (hmem z hz hk) with rfl | hz
        · exact hk
        · have := (List.pairwise_cons.mp hrest).1 z hz
          omega

@[simp] theorem mem_add {v : SortedVec key} {x y : α} :
    y ∈ (v.add x).items ↔ y = x ∨ y ∈ v.items := by
  conv => rhs; rw [← lowerBound_append key (key x) v.items]
  simp only [add, List.mem_append, List.mem_cons]
  tauto

@[simp] theorem size_add (v : SortedVec key) (x : α) :
    (v.add x).size = v.size + 1 := by
  have h := congrArg List.length (lowerBound_append key (key x) v.items)
  simp only [add, size, List.length_append, List.length_cons] at h ⊢
  omega

theorem Strict.add {v : SortedVec key} (hv : v.Strict) {x : α}
    (hx : v.contains x = false) : (v.add x).Strict := by
  have hne : ∀ y ∈ v.items, key y ≠ key x := by
    intro y hy hk
    have := (v.contains_iff x).mpr ⟨y, hy, hk⟩
    simp [hx] at this
  unfold Strict SortedVec.add
  rw [List.pairwise_append, List.pairwise_cons]
  have habove : ∀ y ∈ (lowerBound key (key x) v.items).2, key x < key y := by
    intro y hy
    have := le_key_of_mem_snd v.sorted hy
    have := hne y ((sublist_snd _ _ _).subset hy)
    omega
  refine ⟨List.Pairwise.sublist (sublist_fst _ _ _) hv,
    ⟨habove, List.Pairwise.sublist (sublist_snd _ _ _) hv⟩, ?_⟩
  intro a ha b hb
  have hax := key_lt_of_mem_fst ha
  rcases List.mem_cons.mp hb with rfl | hb
  · exact hax
  · exact hax.trans (habove b hb)

theorem remove_sublist (v : SortedVec key) (x : α) :
    (v.remove x).items.Sublist v.items := by
  have h := (List.tail_sublist (lowerBound key (key x) v.items).2).append_left
    (lowerBound key (key x) v.items).1
  rwa [lowerBound_append] at h

theorem Strict.remove {v : SortedVec key} (hv : v.Strict) (x : α) :
    (v.remove x).Strict :=
  List.Pairwise.sublist (v.remove_sublist x) hv

theorem size_remove_le (v : SortedVec key) (x : α) :
    (v.remove x).size ≤ v.size :=
  (v.remove_sublist x).length_le

theorem Strict.mem_remove {v : SortedVec key} (hv : v.Strict) {x y : α}
    (hx : v.contains x = true) :
    y ∈ (v.remove x).items ↔ y ∈ v.items ∧ key y ≠ key x := by
  obtain ⟨z, hz, hzk⟩ := (v.contains_iff x).mp hx
  have hparts : ∀ {y}, y ∈ v.items ↔ y ∈ (lowerBound key (key x) v.items).1 ∨
      y ∈ (lowerBound key (key x) v.items).2 := by
    intro y
    rw [← List.mem_append, lowerBound_append]
  have hsnd := List.Pairwise.sublist
    (sublist_snd key (key x) v.items) hv
  have hfst : ∀ y ∈ (lowerBound key (key x) v.items).1, key y ≠ key x :=
    fun y hy => (key_lt_of_mem_fst hy).ne
  simp only [SortedVec.remove, List.mem_append]
  rw [hparts] at hz ⊢
  cases hrest : (lowerBound key (key x) v.items).2 with
  | nil =>
      rw [hrest] at hz
      rcases hz with hz | hz
      · exact absurd hzk (hfst z hz)
      · cases hz
  | cons w rest =>
      rw [hrest] at hz hsnd
      obtain ⟨hw, -⟩ := List.pairwise_cons.mp hsnd
      have hxw : key x ≤ key w :=
        le_key_of_mem_snd v.sorted (by rw [hrest]; exact List.mem_cons_self)
      have hwk : key w = key x := by
        rcases hz with hz | hz
        · exact absurd hzk (hfst z hz)
        · rcases List.mem_cons.mp hz with rfl | hz
          · exact hzk
          · have := hw z hz
            omega
      simp only [List.tail_cons, List.mem_cons]
      constructor
      · rintro (hy | hy)
        · exact ⟨.inl hy, hfst y hy⟩
        · have := hw y hy
          exact ⟨.inr (.inr hy), by omega⟩
      · rintro ⟨hy | rfl | hy, hk⟩
        · exact .inl hy
        · exact absurd hwk hk
        · exact .inr hy

private theorem mem_differenceItems {as : List α}
    (has : as.Pairwise fun a b => key a < key b) {y : α} :
    ∀ {bs : List α}, bs.Pairwise (fun a b => key a ≤ key b) →
      (y ∈ differenceItems key as bs ↔
        y ∈ as ∧ ∀ z ∈ bs, key z ≠ key y) := by
  induction as with
  | nil => simp [differenceItems]
  | cons a as ih =>
      intro bs hbs
      obtain ⟨ha, has⟩ := List.pairwise_cons.mp has
      -- what `lowerBound` skips lies below `a` and so below the rest of `as`
      have hskip : ∀ y' ∈ a :: as, (∀ z ∈ bs, key z ≠ key y') ↔
          ∀ z ∈ (lowerBound key (key a) bs).2, key z ≠ key y' := by
        intro y' hy'
        constructor
        · intro h z hz
          exact h z ((sublist_snd _ _ _).subset hz)
        · intro h z hz
          rw [← lowerBound_append key (key a) bs] at hz
          rcases List.mem_append.mp hz with hz | hz
          · have hza := key_lt_of_mem_fst hz
            rcases List.mem_cons.mp hy' with rfl | hy'
            · exact hza.ne
            · exact (hza.trans (ha y' hy')).ne
          · exact h z hz
      have hsnd := hbs.sublist (sublist_snd key (key a) bs)
      have habove := fun z hz => le_key_of_mem_snd (k := key a) hbs (y := z) hz
      unfold differenceItems
      cases hrest : (lowerBound key (key a) bs).2 with
      | nil =>
          simp only [hrest] at hskip
          simp only [List.mem_cons, ih has List.Pairwise.nil]
          constructor
          · rintro (rfl | ⟨hy, -⟩)
            · exact ⟨.inl rfl, (hskip _ List.mem_cons_self).mpr (by simp)⟩
            · exact ⟨.inr hy, (hskip _ (List.mem_cons_of_mem _ hy)).mpr
                (by simp)⟩
          · rintro ⟨rfl | hy, -⟩
            · exact .inl rfl
            · exact .inr ⟨hy, by simp⟩
      | cons b rest =>
          rw [hrest] at hsnd habove
          simp only [hrest] at hskip
          obtain ⟨hb, hrestSorted⟩ := List.pairwise_cons.mp hsnd
          by_cases hab : key b = key a
          · simp only [hab, if_true, ih has hrestSorted]
            constructor
            · rintro ⟨hy, h⟩
              refine ⟨List.mem_cons_of_mem _ hy,
                (hskip _ (List.mem_cons_of_mem _ hy)).mpr ?_⟩
              intro z hz
              rcases List.mem_cons.mp hz with rfl | hz
              · have := ha y hy
                omega
              · exact h z hz
            · rintro ⟨hy, h⟩
              have h' := (hskip y hy).mp h
              rcases List.mem_cons.mp hy with rfl | hy
              · exact absurd hab (h' b List.mem_cons_self)
              · exact ⟨hy, fun z hz => h' z (List.mem_cons_of_mem _ hz)⟩
          · simp only [hab, if_false, List.mem_cons, ih has hsnd]
            have hba : key a < key b := by
              have := habove b List.mem_cons_self
              omega
            constructor
            · rintro (rfl | ⟨hy, h⟩)
              · refine ⟨.inl rfl, (hskip _ List.mem_cons_self).mpr ?_⟩
                intro z hz
                rcases List.mem_cons.mp hz with rfl | hz
                · exact hba.ne'
                · exact (hba.trans_le (hb z hz)).ne'
              · exact ⟨.inr hy,
                  (hskip _ (List.mem_cons_of_mem _ hy)).mpr
                    (by simpa using h)⟩
            · rintro ⟨rfl | hy, h⟩
              · exact .inl rfl
              · refine .inr ⟨hy, ?_⟩
                simpa using (hskip y (List.mem_cons_of_mem _ hy)).mp h

theorem Strict.mem_difference {v : SortedVec key} (hv : v.Strict)
    (w : SortedVec key) {y : α} :
    y ∈ (v.difference w).items ↔ y ∈ v.items ∧ ∀ z ∈ w.items, key z ≠ key y :=
  mem_differenceItems hv w.sorted

def addAll (v : SortedVec key) (l : List α) : SortedVec key :=
  l.foldl add v

@[simp] theorem mem_addAll {l : List α} {y : α} :
    ∀ {v : SortedVec key}, y ∈ (v.addAll l).items ↔ y ∈ v.items ∨ y ∈ l := by
  induction l with
  | nil => simp [addAll]
  | cons a l ih =>
      intro v
      have := ih (v := v.add a)
      simp only [addAll, List.foldl_cons, List.mem_cons] at this ⊢
      rw [this, mem_add]
      tauto

@[simp] theorem size_addAll {l : List α} :
    ∀ {v : SortedVec key}, (v.addAll l).size = v.size + l.length := by
  induction l with
  | nil => simp [addAll]
  | cons a l ih =>
      intro v
      have := ih (v := v.add a)
      simp only [addAll, List.foldl_cons, List.length_cons] at this ⊢
      rw [this, size_add]
      omega

theorem Strict.addAll {l : List α} (hl : (l.map key).Nodup) :
    ∀ {v : SortedVec key}, v.Strict →
      (∀ y ∈ v.items, ∀ a ∈ l, key y ≠ key a) → (v.addAll l).Strict := by
  induction l with
  | nil => intro v hv _; exact hv
  | cons a l ih =>
      intro v hv hdisj
      rw [List.map_cons] at hl
      obtain ⟨ha, hl⟩ := List.nodup_cons.mp hl
      have hnew : v.contains a = false := by
        rw [Bool.eq_false_iff]
        intro hc
        obtain ⟨y, hy, hk⟩ := (v.contains_iff a).mp hc
        exact hdisj y hy a List.mem_cons_self hk
      refine ih hl (hv.add hnew) ?_
      intro y hy b hb
      rcases mem_add.mp hy with rfl | hy
      · intro hk
        exact ha (hk ▸ List.mem_map_of_mem hb)
      · exact hdisj y hy b (List.mem_cons_of_mem _ hb)

theorem strict_empty : (empty : SortedVec key).Strict := List.Pairwise.nil

end SortedVec

end CntPeer.Foundation
