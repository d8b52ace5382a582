import Mathlib.Data.List.Basic

/-!
# Positional files

A file is the sequence of its cells.  Reading past the end fails; writing past
the end first extends the file with a fill value, so both operations behave
like an array with the usual seek-then-access interface.
-/

namespace CntPeer.Foundation

variable {α : Type*}

/-- The `len` cells at `pos`; `none` when the file is shorter. -/
def readAt (f : List α) (pos len : Nat) : Option (List α) :=
  if pos + len ≤ f.length then some ((f.drop pos).take len) else none

def extendTo (fill : α) (f : List α) (len : Nat) : List α :=
  f ++ List.replicate (len - f.length) fill

/-- Overwrite the cells at `pos`; an empty write leaves the file alone. -/
def writeAt (fill : α) (f : List α) (pos : Nat) : List α → List α
  | [] => f
  | d => (extendTo fill f pos).take pos ++ d ++ f.drop (pos + d.length)

/-- The `i`-th block of `size` cells; the last block may be shorter. -/
def chunk (f : List α) (size i : Nat) : List α := (f.drop (i * size)).take size

theorem writeAt_ne_nil {fill : α} {f d : List α} {pos : Nat} (h : d ≠ []) :
    writeAt fill f pos d =
      (extendTo fill f pos).take pos ++ d ++ f.drop (pos + d.length) := by
  cases d with
  | nil => contradiction
  | cons => rfl

@[simp] theorem length_extendTo (fill : α) (f : List α) (len : Nat) :
    (extendTo fill f len).length = max f.length len := by
  simp [extendTo]
  omega

theorem length_writeAt {fill : α} {f d : List α} {pos : Nat} (h : d ≠ []) :
    (writeAt fill f pos d).length = max f.length (pos + d.length) := by
  rw [writeAt_ne_nil h]
  simp
  omega

theorem length_writeAt_within {fill : α} {f d : List α} {pos : Nat}
    (h : pos + d.length ≤ f.length) : (writeAt fill f pos d).length = f.length := by
  cases d with
  | nil => rfl
  | cons a d =>
      rw [length_writeAt (List.cons_ne_nil a d)]
      omega

theorem take_writeAt {fill : α} {f d : List α} {pos : Nat}
    (h : pos ≤ f.length) :
    (writeAt fill f pos d).take (pos + d.length) = f.take pos ++ d := by
  cases d with
  | nil => simp [writeAt]
  | cons a d =>
      have hextend : (extendTo fill f pos).take pos = f.take pos := by
        rw [extendTo, List.take_append_of_le_length h]
      have hlength : (f.take pos ++ a :: d).length = pos + (a :: d).length := by
        rw [List.length_append, List.length_take_of_le h]
      rw [writeAt_ne_nil (List.cons_ne_nil a d), hextend, ← hlength,
        List.take_left]

theorem getElem?_writeAt {fill : α} {f d : List α} {pos k : Nat} (h : d ≠ []) :
    (writeAt fill f pos d)[k]? =
      if k < pos then (extendTo fill f pos)[k]?
      else if k < pos + d.length then d[k - pos]? else f[k]? := by
  have hpre : ((extendTo fill f pos).take pos).length = pos := by
    simp only [List.length_take, length_extendTo]
    omega
  rw [writeAt_ne_nil h, List.append_assoc, List.getElem?_append, hpre]
  split
  · rw [List.getElem?_take, if_pos ‹_›]
  · rw [List.getElem?_append]
    split
    · rw [if_pos (by omega)]
    · rw [if_neg (by omega), List.getElem?_drop]
      congr 1
      omega

theorem getElem?_writeAt_outside {fill : α} {f d : List α} {pos k : Nat}
    (hk : k < f.length) (h : k < pos ∨ pos + d.length ≤ k) :
    (writeAt fill f pos d)[k]? = f[k]? := by
  by_cases hd : d = []
  · subst d
    rfl
  · rw [getElem?_writeAt hd]
    split
    · rw [extendTo, List.getElem?_append_left hk]
    · rw [if_neg (by omega)]

theorem readAt_eq_some_iff {f b : List α} {pos len : Nat} :
    readAt f pos len = some b ↔
      pos + len ≤ f.length ∧ b.length = len ∧
        ∀ k, k < len → b[k]? = f[pos + k]? := by
  unfold readAt
  constructor
  · intro h
    split at h
    · cases h
      refine ⟨‹_›, by simp; omega, ?_⟩
      intro k hk
      simp [hk]
    · contradiction
  · rintro ⟨hlen, hb, hcells⟩
    rw [if_pos hlen]
    congr 1
    apply List.ext_getElem?
    intro k
    by_cases hk : k < len
    · simp [hk, hcells k hk]
    · rw [List.getElem?_eq_none (by simp; omega),
        List.getElem?_eq_none (by omega)]

theorem readAt_writeAt_same {fill : α} {f d : List α} {pos : Nat}
    (h : d ≠ []) : readAt (writeAt fill f pos d) pos d.length = some d := by
  refine readAt_eq_some_iff.mpr ⟨?_, rfl, ?_⟩
  · rw [length_writeAt h]
    omega
  · intro k hk
    rw [getElem?_writeAt h, if_neg (by omega), if_pos (by omega)]
    congr 1
    omega

/-- Frame rule: a write leaves every block it does not overlap readable. -/
theorem readAt_writeAt_disjoint {fill : α} {f d b : List α}
    {pos len at' : Nat} (hread : readAt f pos len = some b)
    (h : pos + len ≤ at' ∨ at' + d.length ≤ pos) :
    readAt (writeAt fill f at' d) pos len = some b := by
  obtain ⟨hlen, hb, hcells⟩ := readAt_eq_some_iff.mp hread
  refine readAt_eq_some_iff.mpr ⟨?_, hb, ?_⟩
  · by_cases hd : d = []
    · subst d
      exact hlen
    · rw [length_writeAt hd]
      omega
  · intro k hk
    rw [getElem?_writeAt_outside (by omega) (by omega), hcells k hk]

theorem length_chunk (f : List α) (size i : Nat) :
    (chunk f size i).length = min size (f.length - i * size) := by
  simp [chunk]

theorem chunk_ne_nil {f : List α} {size i : Nat} (hsize : 0 < size)
    (h : i * size < f.length) : chunk f size i ≠ [] := by
  apply List.ne_nil_of_length_pos
  rw [length_chunk]
  omega

theorem readAt_chunk {f : List α} {size i : Nat} (h : i * size ≤ f.length) :
    readAt f (i * size) (min size (f.length - i * size)) =
      some (chunk f size i) := by
  refine readAt_eq_some_iff.mpr ⟨by omega, length_chunk f size i, ?_⟩
  intro k hk
  have hsize : k < size := by omega
  simp [chunk, hsize]

theorem flatMap_chunk (f : List α) (size : Nat) :
    ∀ n, (List.range n).flatMap (chunk f size) = f.take (n * size) := by
  intro n
  induction n with
  | zero => simp
  | succ n ih =>
      rw [List.range_succ, List.flatMap_append, ih, Nat.succ_mul,
        List.take_add]
      simp [chunk]

theorem chunk_disjoint {size i j : Nat} (h : i ≠ j) {a b : Nat}
    (ha : a ≤ size) (hb : b ≤ size) :
    i * size + a ≤ j * size ∨ j * size + b ≤ i * size := by
  rcases Nat.lt_or_gt_of_ne h with hlt | hlt
  · left
    have := Nat.mul_le_mul_right size hlt
    rw [Nat.succ_mul] at this
    omega
  · right
    have := Nat.mul_le_mul_right size hlt
    rw [Nat.succ_mul] at this
    omega

theorem eq_of_chunks {f g : List α} {size : Nat} (hsize : 0 < size)
    (hlen : f.length ≤ g.length)
    (h : ∀ i, i * size < g.length →
      readAt f (i * size) (min size (g.length - i * size)) =
        some (chunk g size i)) : f = g := by
  apply List.ext_getElem?
  intro k
  by_cases hk : k < g.length
  · have hdiv : k / size * size + k % size = k := by
      rw [Nat.mul_comm]
      exact Nat.div_add_mod k size
    have hmod : k % size < size := Nat.mod_lt k hsize
    obtain ⟨-, -, hcells⟩ := readAt_eq_some_iff.mp (h (k / size) (by omega))
    have hcell := hcells (k % size) (by omega)
    rw [hdiv] at hcell
    rw [← hcell]
    simp [chunk, hmod, hdiv]
  · rw [List.getElem?_eq_none (by omega), List.getElem?_eq_none (by omega)]

end CntPeer.Foundation
