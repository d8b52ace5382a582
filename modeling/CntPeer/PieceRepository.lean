import CntPeer.Foundation.ByteFile
import CntPeer.Panic

/-!
# The piece repository

A file of pieces with a cache in front of it.  `get` and `save` are given by
their sections: the cache lookup, the file access and the cache insertion are
separate steps of the calling thread.

What `ensureSpace` evicts before an insertion is left to an oracle, and that it
finds enough to evict is taken for granted: `emplace` is what an insertion does
when `ensureSpace` returns.  `n_cached_byte`, and the crash on an empty cache, are
in `CountedRepository`, and in a running process in `Proc.cacheMeter`.
-/

namespace CntPeer

open CntPeer.Foundation

abbrev Piece := List UInt8

def ceilingDiv (x y : Nat) : Nat := (x + y - 1) / y

theorem lt_of_lt_ceilingDiv {i n k : Nat} (hk : 0 < k)
    (h : i < ceilingDiv n k) : i * k < n := by
  have h' := (Nat.le_div_iff_mul_le hk).mp (Nat.succ_le_of_lt h)
  rw [Nat.succ_mul] at h'
  omega

theorem lt_ceilingDiv {i n k : Nat} (hk : 0 < k) (h : i * k < n) :
    i < ceilingDiv n k := by
  refine Nat.lt_of_succ_le ((Nat.le_div_iff_mul_le hk).mpr ?_)
  rw [Nat.succ_mul]
  omega

structure PieceRepository where
  file : List UInt8
  /-- `NewFile`; an `ExistingFile` refuses writes -/
  writable : Bool
  size : Nat
  pieceSize : Nat
  cache : List (Nat × Piece)

namespace PieceRepository

/-- `std::min(piece_size, f->size() - begin)` for a piece that begins inside
the file. -/
def expectedSize (r : PieceRepository) (i : Nat) : Nat :=
  min r.pieceSize (r.size - i * r.pieceSize)

/-- `get`, under the reader lock. -/
def find (r : PieceRepository) (i : Nat) : Option Piece :=
  r.cache.lookup i

/-- `get`, the file access; `none` is the panic of `readAt`. -/
def read (r : PieceRepository) (i : Nat) : Option Piece :=
  readAt r.file (i * r.pieceSize) (r.expectedSize i)

/-- Under the writer lock, when `ensureSpace` returns: it has kept the entries that
`keep` selects, then `emplace` adds the piece unless its index is taken. -/
def emplace (r : PieceRepository) (keep : Nat → Bool) (i : Nat) (d : Piece) :
    PieceRepository :=
  let kept := r.cache.filter fun e => keep e.1
  { r with cache := if (kept.lookup i).isSome then kept else (i, d) :: kept }

/-- `save` up to and including `writeAt`. -/
def write (r : PieceRepository) (i : Nat) (d : Piece) :
    Except Panic PieceRepository :=
  if d.length ≠ r.expectedSize i then .error .unexpectedPieceSize
  else if r.writable then
    .ok { r with file := writeAt 0 r.file (i * r.pieceSize) d }
  else .error .fileNotWritable

theorem mem_cache_emplace {r : PieceRepository} {keep : Nat → Bool} {i : Nat}
    {d : Piece} {e : Nat × Piece} (h : e ∈ (r.emplace keep i d).cache) :
    e = (i, d) ∨ e ∈ r.cache := by
  unfold emplace at h
  dsimp only at h
  split at h
  · exact .inr (List.mem_filter.mp h).1
  · rcases List.mem_cons.mp h with rfl | h
    · exact .inl rfl
    · exact .inr (List.mem_filter.mp h).1

theorem mem_cache_of_find {r : PieceRepository} {i : Nat} {d : Piece}
    (h : r.find i = some d) : (i, d) ∈ r.cache := by
  obtain ⟨l₁, l₂, hl, -⟩ := List.lookup_eq_some_iff.mp h
  rw [hl]
  simp

theorem length_of_read {r : PieceRepository} {i : Nat} {d : Piece}
    (h : r.read i = some d) : d.length = r.expectedSize i :=
  (readAt_eq_some_iff.mp h).2.1

theorem length_of_write {r r' : PieceRepository} {i : Nat} {d : Piece}
    (h : r.write i d = .ok r') : d.length = r.expectedSize i := by
  unfold write at h
  split at h
  · cases h
  · rename_i hlen
    exact not_not.mp hlen

end PieceRepository

end CntPeer
