import CntPeer.Foundation.Eviction
import CntPeer.PieceRepository

/-!
# The counted cache

The repository with `n_cached_byte` and the loop of `ensureSpace`.  The entries
are erased in the order in which the hash map iterates, which is unknown: each
insertion is given an arrangement of the cache to erase from the front.
-/

namespace CntPeer

open CntPeer.Foundation

def pieceCacheSize : Nat := 16777216

abbrev CacheEntry := Nat × Piece

def cachedBytes (cache : List CacheEntry) : Nat :=
  total (fun e => e.2.length) cache

structure CountedRepository extends PieceRepository where
  nCachedByte : Int

namespace CountedRepository

/-- `ensureSpace`, erasing in the order given; `none` when it erases from an
empty cache. -/
def ensureSpace (kMemLimit : Nat) (x : CountedRepository)
    (order : List CacheEntry) (size : Nat) : Option CountedRepository :=
  (evict (fun e => e.2.length) kMemLimit size x.nCachedByte order).map
    fun e => { x with nCachedByte := e.1, cache := e.2 }

/-- `cache.emplace(i, d)`: an index that is taken keeps its piece. -/
def emplaceEntry (x : CountedRepository) (i : Nat) (d : Piece) :
    CountedRepository :=
  { x with cache :=
      if (x.find i).isSome then x.cache else (i, d) :: x.cache }

/-- The section of `get` and of `save` under the writer lock. -/
def insert (kMemLimit : Nat) (x : CountedRepository) (order : List CacheEntry)
    (i : Nat) (d : Piece) (size : Nat) : Option CountedRepository :=
  (x.ensureSpace kMemLimit order d.length).map fun y =>
    { y.emplaceEntry i d with nCachedByte := y.nCachedByte + size }

def get (kMemLimit : Nat) (x : CountedRepository) (order : List CacheEntry)
    (i : Nat) : Except Halt (CountedRepository × Piece) :=
  match x.find i with
  | some d => .ok (x, d)
  | none =>
      match x.read i with
      | none => .error (.panic .shortRead)
      | some d =>
          match x.insert kMemLimit order i d (x.expectedSize i) with
          | none => .error .crash
          | some y => .ok (y, d)

def save (kMemLimit : Nat) (x : CountedRepository) (order : List CacheEntry)
    (i : Nat) (d : Piece) : Except Halt CountedRepository :=
  match x.write i d with
  | .error reason => .error (.panic reason)
  | .ok r =>
      match insert kMemLimit { r with nCachedByte := x.nCachedByte } order i d
        (x.expectedSize i) with
      | none => .error .crash
      | some y => .ok y

def Exact (x : CountedRepository) : Prop := x.nCachedByte = cachedBytes x.cache

/-- Every entry for `i` goes before there is room for `size` bytes. -/
def Displaces (kMemLimit : Nat) (x : CountedRepository)
    (order : List CacheEntry) (i size : Nat) : Prop :=
  ∀ pre e post, order = pre ++ e :: post → e.1 = i →
    (kMemLimit : Int) < x.nCachedByte + size - cachedBytes pre

variable {kMemLimit : Nat} {x y : CountedRepository} {order : List CacheEntry}
  {i size : Nat} {d : Piece}

theorem find_eq_none : x.find i = none ↔ ∀ e ∈ x.cache, e.1 ≠ i := by
  simp only [PieceRepository.find, List.lookup_eq_none_iff, bne_iff_ne, ne_eq,
    eq_comm (a := i)]

theorem displaces_of_find (h : x.find i = none) (horder : order.Perm x.cache)
    (size : Nat) : x.Displaces kMemLimit order i size := by
  intro pre e post hsplit he
  have hmem : e ∈ x.cache := horder.mem_iff.mp (by rw [hsplit]; simp)
  exact absurd he (find_eq_none.mp h e hmem)

theorem ensureSpace_exact (hx : x.Exact) (horder : order.Perm x.cache)
    (hsize : size ≤ kMemLimit) :
    ∃ kept, kept <:+ order ∧ x.ensureSpace kMemLimit order size =
      some { x with nCachedByte := cachedBytes kept, cache := kept } := by
  have hcount : x.nCachedByte =
      total (fun e : CacheEntry => e.2.length) order := by
    rw [hx, cachedBytes, total_perm horder]
  obtain ⟨kept, hkept⟩ := evict_exact hsize order
  obtain ⟨dropped, hdrop, -⟩ := evict_eq_some hkept
  refine ⟨kept, ⟨dropped, hdrop.symm⟩, ?_⟩
  rw [ensureSpace, hcount, hkept]
  rfl

theorem insert_exact (hx : x.Exact) (horder : order.Perm x.cache)
    (hsize : d.length ≤ kMemLimit)
    (hnew : x.Displaces kMemLimit order i d.length) :
    ∃ kept, kept <:+ order ∧ (∀ e ∈ kept, e.1 ≠ i) ∧
      x.insert kMemLimit order i d d.length =
        some { x with
          nCachedByte := cachedBytes ((i, d) :: kept)
          cache := (i, d) :: kept } := by
  obtain ⟨kept, hkept, hspace⟩ := ensureSpace_exact hx horder hsize
  have hgone : ∀ e ∈ kept, e.1 ≠ i := by
    simp only [ensureSpace, Option.map_eq_some_iff] at hspace
    obtain ⟨⟨n, l⟩, hevict, heq⟩ := hspace
    obtain rfl : l = kept := congrArg (fun y => y.cache) heq
    exact dropped_of_evict hevict hnew
  refine ⟨kept, hkept, hgone, ?_⟩
  have hfind : ({ x with nCachedByte := cachedBytes kept, cache := kept } :
      CountedRepository).find i = none := find_eq_none.mpr hgone
  rw [insert, hspace]
  simp only [Option.map_some, emplaceEntry, hfind]
  simp [cachedBytes, Int.add_comm]

theorem lookup_eq_some_iff {l : List CacheEntry}
    (hnodup : (l.map Prod.fst).Nodup) :
    l.lookup i = some d ↔ (i, d) ∈ l := by
  constructor
  · intro h
    obtain ⟨l₁, l₂, rfl, -⟩ := List.lookup_eq_some_iff.mp h
    simp
  · intro h
    obtain ⟨l₁, l₂, rfl⟩ := List.append_of_mem h
    rw [List.lookup_eq_some_iff]
    refine ⟨l₁, l₂, rfl, fun e he => ?_⟩
    rw [List.map_append, List.nodup_append] at hnodup
    have hne := hnodup.2.2 e.1 (List.mem_map_of_mem he) i (by simp)
    simpa using hne.symm

theorem lookup_perm {l l' : List CacheEntry} (hnodup : (l.map Prod.fst).Nodup)
    (hperm : l.Perm l') : l.lookup i = l'.lookup i := by
  have hnodup' : (l'.map Prod.fst).Nodup :=
    (hperm.map Prod.fst).nodup_iff.mp hnodup
  apply Option.ext
  intro d
  rw [lookup_eq_some_iff hnodup, lookup_eq_some_iff hnodup', hperm.mem_iff]

theorem kept_perm (hnodup : (x.cache.map Prod.fst).Nodup)
    (horder : order.Perm x.cache)
    (h : x.ensureSpace kMemLimit order size = some y) :
    (x.cache.filter fun e => (y.cache.lookup e.1).isSome).Perm y.cache := by
  simp only [ensureSpace, Option.map_eq_some_iff] at h
  obtain ⟨⟨n, kept⟩, hevict, rfl⟩ := h
  obtain ⟨dropped, rfl, -⟩ := evict_eq_some hevict
  have hnodup' : ((dropped ++ kept).map Prod.fst).Nodup :=
    (horder.map Prod.fst).nodup_iff.mpr hnodup
  refine (horder.symm.filter _).trans ?_
  rw [List.map_append, List.nodup_append] at hnodup'
  rw [List.filter_append, List.filter_eq_nil_iff.mpr, List.filter_eq_self.mpr,
    List.nil_append]
  · intro e he
    rw [(lookup_eq_some_iff hnodup'.2.1).mpr he]
    rfl
  · intro e he hfound
    obtain ⟨d', hd'⟩ := Option.isSome_iff_exists.mp hfound
    have hmem := (lookup_eq_some_iff hnodup'.2.1).mp hd'
    exact hnodup'.2.2 e.1 (List.mem_map_of_mem he) e.1
      (List.mem_map.mpr ⟨_, hmem, rfl⟩) rfl

/-- The process model leaves the evictions to an oracle: an insertion after
`ensureSpace` is an insertion there, with what is left as the oracle. -/
theorem ensureSpace_emplace (hnodup : (x.cache.map Prod.fst).Nodup)
    (horder : order.Perm x.cache)
    (h : x.ensureSpace kMemLimit order size = some y) (j : Nat) :
    (x.toPieceRepository.emplace (fun j => (y.cache.lookup j).isSome) i d).find j =
      (y.emplaceEntry i d).find j := by
  have hlook : ∀ j, (x.cache.filter fun e =>
      (y.cache.lookup e.1).isSome).lookup j = y.cache.lookup j :=
    fun j => lookup_perm (hnodup.sublist (List.filter_sublist.map _))
      (kept_perm hnodup horder h)
  simp only [PieceRepository.find, PieceRepository.emplace, emplaceEntry, hlook]
  by_cases hfound : (y.cache.lookup i).isSome = true
  · simp only [hfound, if_true, hlook]
  · simp only [hfound, List.lookup_cons, hlook, Bool.false_eq_true, if_false]

theorem ensureSpace_room (h : x.nCachedByte + size ≤ kMemLimit)
    (order : List CacheEntry) :
    x.ensureSpace kMemLimit order size = some { x with cache := order } := by
  rw [ensureSpace, evict_room h]
  rfl

end CountedRepository

end CntPeer
