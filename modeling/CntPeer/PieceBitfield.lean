import Mathlib.Data.List.Count
import CntPeer.Panic

/-!
# Piece bitfields

Three classes share a vector of one-byte piece statuses: the snapshot that
travels in a message, the view of a peer that one thread owns, and the record of
the pieces this process owns, which all session threads share under a mutex.
-/

namespace CntPeer

/-- A status byte; a peer may send bytes outside the enumeration. -/
inductive PieceStatus where
  | absent
  | requested
  | owned
  | other (byte : UInt8) (h : 2 < byte)
  deriving DecidableEq

/-- `AbstractPieceBitfield::checkRange`; `false` is the panic. -/
def checkRange (sv : List PieceStatus) (i : Int) : Bool :=
  decide (0 ≤ i) && decide (i < sv.length)

/--
`AbstractPieceBitfield::operator-`: the indices owned on the left and absent on
the right; `none` is the panic on different sizes.
-/
def difference (lhs rhs : List PieceStatus) : Option (List Nat) :=
  if lhs.length = rhs.length then
    some ((List.range lhs.length).filter fun i =>
      decide (lhs[i]? = some .owned) && decide (rhs[i]? = some .absent))
  else none

theorem mem_of_difference {lhs rhs : List PieceStatus} {is : List Nat}
    (h : difference lhs rhs = some is) (i : Nat) :
    i ∈ is ↔ lhs[i]? = some .owned ∧ rhs[i]? = some .absent := by
  unfold difference at h
  split at h
  · cases h
    simp only [List.mem_filter, List.mem_range, Bool.and_eq_true,
      decide_eq_true_eq, and_iff_right_iff_imp]
    rintro ⟨hl, -⟩
    exact (List.getElem?_eq_some_iff.mp hl).1
  · contradiction

theorem difference_eq_none {lhs rhs : List PieceStatus} :
    difference lhs rhs = none ↔ lhs.length ≠ rhs.length := by
  simp [difference]

/-- The view of a peer; its counter always agrees with its vector. -/
structure PieceBitfield where
  sv : List PieceStatus
  nOwned : Nat
  nOwned_eq : nOwned = sv.count .owned

namespace PieceBitfield

def ofSnapshot (sv : List PieceStatus) : PieceBitfield :=
  ⟨sv, sv.count .owned, rfl⟩

def isOwned (b : PieceBitfield) (i : Nat) : Bool :=
  decide (b.sv[i]? = some .owned)

theorem count_set_owned {sv : List PieceStatus} {i : Nat}
    (hi : i < sv.length) :
    (sv.set i .owned).count .owned =
      sv.count .owned + if sv[i]? = some .owned then 0 else 1 := by
  rw [List.count_set hi, List.getElem?_eq_getElem hi]
  by_cases h : sv[i] = .owned
  · have : 0 < sv.count .owned :=
      List.count_pos_iff.mpr (h ▸ List.getElem_mem hi)
    simp [h]
    omega
  · simp [h]

def setOwned (b : PieceBitfield) (i : Nat) : PieceBitfield where
  sv := b.sv.set i .owned
  nOwned :=
    if i < b.sv.length ∧ b.sv[i]? ≠ some .owned then b.nOwned + 1
    else b.nOwned
  nOwned_eq := by
    by_cases hi : i < b.sv.length
    · rw [count_set_owned hi, b.nOwned_eq, List.getElem?_eq_getElem hi]
      by_cases h : b.sv[i] = .owned <;> simp [hi, h]
    · rw [if_neg (by tauto), List.set_eq_of_length_le (by omega), b.nOwned_eq]

def owningAll (b : PieceBitfield) : Bool := b.nOwned == b.sv.length

theorem owningAll_iff (b : PieceBitfield) :
    b.owningAll = true ↔ ∀ i, i < b.sv.length → b.sv[i]? = some .owned := by
  rw [owningAll, beq_iff_eq, b.nOwned_eq, List.count_eq_length]
  constructor
  · intro h i hi
    rw [List.getElem?_eq_getElem hi, h _ (List.getElem_mem hi)]
  · intro h s hs
    obtain ⟨i, hi, rfl⟩ := List.getElem_of_mem hs
    have := h i hi
    rw [List.getElem?_eq_getElem hi] at this
    exact (Option.some.inj this).symm

@[simp] theorem length_setOwned (b : PieceBitfield) (i : Nat) :
    (b.setOwned i).sv.length = b.sv.length := by
  simp [setOwned]

end PieceBitfield

/--
The pieces this process owns.  `setting` is the mutex `m`: a thread holds it
across two steps only inside `setOwned`, between the counter and the vector;
every other critical section is one step and needs `m` free.
-/
structure SyncPieceBitfield (Thread : Type) where
  sv : List PieceStatus
  nOwned : Nat
  setting : Option (Thread × Nat)

namespace SyncPieceBitfield

variable {Thread : Type}

def init (size : Nat) (owningAllPiece : Bool) : SyncPieceBitfield Thread where
  sv := List.replicate size (if owningAllPiece then .owned else .absent)
  nOwned := if owningAllPiece then size else 0
  setting := none

/-- `REQUESTED` is filtered from what is sent. -/
def snapshot (b : SyncPieceBitfield Thread) : List PieceStatus :=
  b.sv.map fun e => if e = .requested then .absent else e

def isOwned (b : SyncPieceBitfield Thread) (i : Nat) : Bool :=
  decide (b.sv[i]? = some .owned)

def isRequested (b : SyncPieceBitfield Thread) (i : Nat) : Bool :=
  decide (b.sv[i]? = some .requested)

def owningAll (b : SyncPieceBitfield Thread) : Bool := b.nOwned == b.sv.length

def setRequested (b : SyncPieceBitfield Thread) (i : Nat) :
    SyncPieceBitfield Thread :=
  { b with sv := b.sv.set i .requested }

/-- First half of `setOwned`: lock and count. -/
def countOwned (b : SyncPieceBitfield Thread) (t : Thread) (i : Nat) :
    SyncPieceBitfield Thread :=
  { b with
    nOwned := if b.sv[i]? ≠ some .owned then b.nOwned + 1 else b.nOwned
    setting := some (t, i) }

/-- Second half of `setOwned`: store the status and unlock. -/
def markOwned (b : SyncPieceBitfield Thread) (i : Nat) :
    SyncPieceBitfield Thread :=
  { b with sv := b.sv.set i .owned, setting := none }

/-- The vector as it stands once a pending `setOwned` has finished. -/
def settled (b : SyncPieceBitfield Thread) : List PieceStatus :=
  match b.setting with
  | none => b.sv
  | some (_, i) => b.sv.set i .owned

/-- The counter runs ahead of the vector by the pending `setOwned` only. -/
def Counted (b : SyncPieceBitfield Thread) : Prop :=
  b.nOwned = b.settled.count .owned

variable {b : SyncPieceBitfield Thread} {i : Nat}

@[simp] theorem length_settled : b.settled.length = b.sv.length := by
  unfold settled
  split <;> simp

theorem counted_init (size : Nat) (owningAllPiece : Bool) :
    (init size owningAllPiece : SyncPieceBitfield Thread).Counted := by
  cases owningAllPiece <;>
    simp [Counted, settled, init, List.count_replicate]

theorem Counted.setRequested (h : b.Counted) (hm : b.setting = none)
    (hi : b.sv[i]? = some .absent) : (b.setRequested i).Counted := by
  obtain ⟨hlt, hget⟩ := List.getElem?_eq_some_iff.mp hi
  simp only [Counted, settled, SyncPieceBitfield.setRequested, hm] at h ⊢
  rw [h, List.count_set hlt]
  simp [hget]

theorem Counted.countOwned (h : b.Counted) (hm : b.setting = none) (t : Thread)
    (hi : i < b.sv.length) : (b.countOwned t i).Counted := by
  simp only [Counted, settled, SyncPieceBitfield.countOwned, hm] at h ⊢
  rw [PieceBitfield.count_set_owned hi, h]
  by_cases hget : b.sv[i]? = some .owned <;> simp [hget]

theorem Counted.markOwned (h : b.Counted) {t : Thread}
    (hm : b.setting = some (t, i)) : (b.markOwned i).Counted := by
  simpa [Counted, settled, SyncPieceBitfield.markOwned, hm] using h

/-- The counter is full exactly when every status is `OWNED` or about to be. -/
theorem Counted.owningAll_iff (h : b.Counted) :
    b.owningAll = true ↔
      ∀ i, i < b.sv.length → b.settled[i]? = some .owned := by
  have hfull := (PieceBitfield.ofSnapshot b.settled).owningAll_iff
  simp only [PieceBitfield.ofSnapshot, length_settled] at hfull
  rw [owningAll, h, ← hfull]
  simp [PieceBitfield.owningAll]

theorem Counted.owningAll (h : b.Counted)
    (hall : ∀ i, i < b.sv.length → b.sv[i]? = some .owned) :
    b.owningAll = true := by
  refine h.owningAll_iff.mpr fun i hi => ?_
  unfold settled
  split
  · exact hall i hi
  · rename_i _ j _
    by_cases hij : j = i
    · subst j
      simp [hi]
    · simpa [List.getElem?_set, hij] using hall i hi

end SyncPieceBitfield

end CntPeer
