import CntPeer.Foundation.History
import CntPeer.Foundation.WriteOnce
import CntPeer.PieceRepository.Accounting

/-!
# Concurrent calls

The sections of `get` and `save` interleave, and a piece can be evicted between
any two of them; even so each call acts as if it were done at once when it
returns.  This does not rest on the counter of the cache.
-/

namespace CntPeer

open CntPeer.Foundation

theorem CountedRepository.insert_cache {kMemLimit : Nat} {x y : CountedRepository}
    {order : List CacheEntry} {i size : Nat} {d : Piece}
    (horder : order.Perm x.cache)
    (h : x.insert kMemLimit order i d size = some y) :
    ∃ n cache, y = { x with nCachedByte := n, cache := cache } ∧
      ∀ e ∈ cache, e = (i, d) ∨ e ∈ x.cache := by
  simp only [insert, ensureSpace, Option.map_map, Option.map_eq_some_iff] at h
  obtain ⟨⟨n, kept⟩, hevict, rfl⟩ := h
  obtain ⟨dropped, rfl, -⟩ := evict_eq_some hevict
  refine ⟨_, _, rfl, fun e he => ?_⟩
  have hkept : e ∈ kept → e ∈ x.cache := fun hmem =>
    horder.mem_iff.mp (List.mem_append_right dropped hmem)
  simp only at he
  split at he
  · exact .inr (hkept he)
  · exact (List.mem_cons.mp he).imp_right hkept

namespace Callers

variable {Thread : Type}

def returns (x : Callers Thread) : Thread × CallAct → List (CellEvent Nat Piece)
  | (_, .get i) => ((x.repo.find i).map (CellEvent.get i)).toList
  | (t, .insert _) =>
      match x.call t with
      | .caching i d => [.get i d]
      | .saving i d => [.put i d]
      | _ => []
  | _ => []

def pieces (r : PieceRepository) (i : Nat) : Option Piece :=
  if r.writable = false ∧ i < ceilingDiv r.size r.pieceSize then
    some (chunk r.file r.pieceSize i)
  else none

def Holds (r : PieceRepository) (begun : List Nat) (m : Nat → Option Piece) :
    Call → Prop
  | .idle => True
  | .reading i => m i ≠ none
  | .caching i d => m i = some d
  | .saving i d => i ∈ begun ∧ m i = none ∧ r.read i = some d

/-- The cells are what is owned; the file and the cache agree with them, and one
thread saves each piece. -/
structure Linear (m : Nat → Option Piece) (x : Callers Thread) : Prop where
  pieceSize : 0 < x.repo.pieceSize
  cells : ∀ i, m i ≠ none ↔ i ∈ x.owned
  file : ∀ i d, m i = some d → x.repo.read i = some d
  cached : ∀ e ∈ x.repo.cache, m e.1 = some e.2
  begun : ∀ i ∈ x.owned, i ∈ x.begun
  locals : ∀ t, Holds x.repo.toPieceRepository x.begun m (x.call t)
  alone : ∀ t u i d d', x.call t = .saving i d → x.call u = .saving i d' → t = u

variable {kMemLimit : Nat} {x x' : Callers Thread} {t : Thread} {r : PieceRepository}
  {order : List CacheEntry} {i : Nat} {d : Piece} {m : Nat → Option Piece}

theorem linear_start (hP : 0 < r.pieceSize)
    (hfile : r.writable = true ∨ r.file.length = r.size) :
    Linear (pieces r) (start r : Callers Thread) where
  pieceSize := hP
  cells i := by
    simp only [pieces, start]
    cases r.writable <;> simp
  file i d hd := by
    simp only [pieces] at hd
    split at hd
    · rename_i hi
      cases hd
      have hlen := hfile.resolve_left (by simp [hi.1])
      have hlt := lt_of_lt_ceilingDiv hP hi.2
      show readAt r.file (i * r.pieceSize) (min r.pieceSize (r.size - i * r.pieceSize)) = _
      rw [← hlen]
      exact readAt_chunk (by omega)
    · contradiction
  cached := nofun
  begun _ h := h
  locals _ := trivial
  alone := nofun

theorem Linear.recache (h : Linear m x) {n : Int} {cache : List CacheEntry}
    (hcache : ∀ e ∈ cache, m e.1 = some e.2) :
    Linear m { x with repo := { x.repo with nCachedByte := n, cache := cache } } :=
  ⟨h.pieceSize, h.cells, h.file, hcache, h.begun, h.locals, h.alone⟩

variable [DecidableEq Thread]

theorem Linear.goto (h : Linear m x) {c : Call}
    (hc : Holds x.repo.toPieceRepository x.begun m c)
    (hsave : ∀ i d, c ≠ .saving i d) : Linear m (x.goto t c) := by
  refine ⟨h.pieceSize, h.cells, h.file, h.cached, h.begun, fun u => ?_, ?_⟩
  · rw [goto_call]
    split
    · exact hc
    · exact h.locals u
  · intro u v i d d' hu hv
    rw [goto_call] at hu hv
    split at hu
    · exact absurd hu (hsave i d)
    · split at hv
      · exact absurd hv (hsave i d')
      · exact h.alone u v i d d' hu hv

theorem Linear.write (h : Linear m x) {r : PieceRepository} (hnew : i ∉ x.begun)
    (hinside : i * x.repo.pieceSize < x.repo.size)
    (hwrite : x.repo.write i d = .ok r) :
    Linear m { x.goto t (.saving i d) with
      repo := { r with nCachedByte := x.repo.nCachedByte }
      begun := i :: x.begun } := by
  have hP := h.pieceSize
  have hempty : m i = none := by
    by_contra hm
    exact hnew (h.begun i ((h.cells i).mp hm))
  unfold PieceRepository.write at hwrite
  split at hwrite
  · contradiction
  rename_i hlen
  rw [ne_eq, not_not, PieceRepository.expectedSize] at hlen
  split at hwrite
  swap
  · contradiction
  cases hwrite
  have hne : d ≠ [] := by
    rintro rfl
    rw [List.length_nil] at hlen
    omega
  -- what is on disk of the other pieces stays
  have hframe : ∀ j d', j ≠ i → x.repo.read j = some d' →
      readAt (writeAt 0 x.repo.file (i * x.repo.pieceSize) d)
        (j * x.repo.pieceSize) (x.repo.expectedSize j) = some d' := fun j d' hji hread =>
    readAt_writeAt_disjoint hread
      (chunk_disjoint hji (Nat.min_le_left _ _) (by omega))
  -- `i` has not been begun, so no other thread is saving it
  have hother : ∀ u j d', x.call u = .saving j d' → j ≠ i := by
    rintro u j d' hu rfl
    have hl := h.locals u
    rw [hu] at hl
    exact hnew hl.1
  refine ⟨hP, h.cells, fun j d' hj => ?_, h.cached,
    fun j hj => List.mem_cons_of_mem _ (h.begun j hj), fun u => ?_, ?_⟩
  · refine hframe j d' ?_ (h.file j d' hj)
    rintro rfl
    rw [hempty] at hj
    cases hj
  · show Holds _ _ _ ((x.goto t (.saving i d)).call u)
    rw [goto_call]
    split
    · refine ⟨List.mem_cons_self, hempty, ?_⟩
      show readAt _ _ (min _ _) = _
      rw [← hlen]
      exact readAt_writeAt_same hne
    · have hl := h.locals u
      cases hcall : x.call u with
      | saving j d' =>
          rw [hcall] at hl
          exact ⟨List.mem_cons_of_mem _ hl.1, hl.2.1,
            hframe j d' (hother u j d' hcall) hl.2.2⟩
      | _ =>
          rw [hcall] at hl
          exact hl
  · intro u v j d₁ d₂ hu hv
    simp only [goto_call] at hu hv
    split at hu
    · split at hv
      · simp_all
      · cases hu
        exact absurd rfl (hother v _ d₂ hv)
    · split at hv
      · cases hv
        exact absurd rfl (hother u _ d₁ hu)
      · exact h.alone u v j d₁ d₂ hu hv

theorem Linear.put (h : Linear m x) (hcall : x.call t = .saving i d) :
    Linear (Function.update m i (some d))
      { x.goto t .idle with owned := i :: x.owned } := by
  have hl := h.locals t
  rw [hcall] at hl
  obtain ⟨hbegun, hempty, hread⟩ := hl
  have hidle := h.goto (t := t) (c := .idle) trivial (by simp)
  have hkeep : ∀ {j v}, m j = some v → Function.update m i (some d) j = some v :=
    fun hj => held_cellStep hj (cellStep_put hempty)
  refine ⟨h.pieceSize, fun j => ?_, fun j d' hj => ?_, fun e he => hkeep (h.cached e he),
    fun j hj => ?_, fun u => ?_, hidle.alone⟩
  · by_cases hji : j = i
    · simp [hji]
    · rw [Function.update_of_ne hji, List.mem_cons, or_iff_right hji]
      exact h.cells j
  · by_cases hji : j = i
    · subst hji
      rw [Function.update_self] at hj
      cases hj
      exact hread
    · rw [Function.update_of_ne hji] at hj
      exact h.file j d' hj
  · rcases List.mem_cons.mp hj with rfl | hj
    · exact hbegun
    · exact h.begun j hj
  · show Holds _ _ _ ((x.goto t .idle).call u)
    rw [goto_call]
    split
    · trivial
    · rename_i hut
      have hu := h.locals u
      cases hcall' : x.call u with
      | idle => trivial
      | reading j =>
          rw [hcall'] at hu
          obtain ⟨v, hv⟩ := Option.ne_none_iff_exists'.mp hu
          exact Option.ne_none_iff_exists'.mpr ⟨v, hkeep hv⟩
      | caching j d' =>
          rw [hcall'] at hu
          exact hkeep hu
      | saving j d' =>
          rw [hcall'] at hu
          have hji : j ≠ i := by
            rintro rfl
            exact hut (h.alone u t j d' d hcall' hcall)
          exact ⟨hu.1, (Function.update_of_ne hji _ m).trans hu.2.1, hu.2.2⟩

/-- The section under the writer lock is where a missed `get` and a `save`
return. -/
theorem Linear.inserted (h : Linear m x) (horder : order.Perm x.repo.cache)
    (hstep : x.inserted kMemLimit t order = some x') :
    ∃ m', run cellStep m (x.returns (t, .insert order)) = some m' ∧ Linear m' x' := by
  have hl := h.locals t
  have hidle := h.goto (t := t) (c := .idle) trivial (by simp)
  cases hcall : x.call t with
  | idle | reading i =>
      simp only [Callers.inserted, hcall] at hstep
      contradiction
  | caching i d =>
      simp only [Callers.inserted, hcall, Option.map_eq_some_iff] at hstep
      obtain ⟨y, hinsert, rfl⟩ := hstep
      obtain ⟨n, cache, rfl, hcache⟩ := CountedRepository.insert_cache horder hinsert
      rw [hcall] at hl
      refine ⟨m, ?_, hidle.recache fun e he => ?_⟩
      · simp only [returns, hcall, run, cellStep_get (show m i = some d from hl),
          Option.bind_some]
      · rcases hcache e he with rfl | he
        · exact hl
        · exact h.cached e he
  | saving i d =>
      simp only [Callers.inserted, hcall, Option.map_eq_some_iff] at hstep
      obtain ⟨y, hinsert, rfl⟩ := hstep
      obtain ⟨n, cache, rfl, hcache⟩ := CountedRepository.insert_cache horder hinsert
      rw [hcall] at hl
      have hput := h.put hcall
      refine ⟨Function.update m i (some d), ?_, hput.recache fun e he => ?_⟩
      · simp only [returns, hcall, run, cellStep_put hl.2.1, Option.bind_some]
      · rcases hcache e he with rfl | he
        · exact Function.update_self ..
        · exact hput.cached e he

theorem Linear.step {a : Thread × CallAct} (h : Linear m x)
    (hstep : x.step kMemLimit a = some x') :
    ∃ m', run cellStep m (x.returns a) = some m' ∧ Linear m' x' := by
  obtain ⟨t, a⟩ := a
  cases a with
  | get i =>
      simp only [Callers.step] at hstep
      split at hstep
      · rename_i hen
        split at hstep
        · rename_i d hfind
          cases hstep
          have hd := h.cached _ (PieceRepository.mem_cache_of_find hfind)
          refine ⟨m, ?_, h⟩
          simp only [returns, hfind, Option.map_some, Option.toList_some, run,
            cellStep_get hd, Option.bind_some]
        · rename_i hfind
          cases hstep
          refine ⟨m, ?_, h.goto ((h.cells i).mpr hen.2) (by simp)⟩
          simp only [returns, hfind, Option.map_none, Option.toList_none, run]
      · contradiction
  | read =>
      simp only [Callers.step] at hstep
      cases hcall : x.call t with
      | reading i =>
          simp only [hcall, Option.map_eq_some_iff] at hstep
          obtain ⟨d, hread, rfl⟩ := hstep
          have hl := h.locals t
          rw [hcall] at hl
          obtain ⟨v, hv⟩ := Option.ne_none_iff_exists'.mp hl
          have hvd : v = d := Option.some.inj ((h.file i v hv).symm.trans hread)
          exact ⟨m, rfl, h.goto (hvd ▸ hv) (by simp)⟩
      | _ =>
          rw [hcall] at hstep
          contradiction
  | save i d =>
      simp only [Callers.step] at hstep
      split at hstep
      · rename_i hen
        split at hstep
        · contradiction
        · rename_i r hwrite
          cases hstep
          exact ⟨m, rfl, h.write hen.2.1 hen.2.2 hwrite⟩
      · contradiction
  | insert order =>
      simp only [Callers.step] at hstep
      split at hstep
      · exact h.inserted ‹_› hstep
      · contradiction

/--
`get` and `save` are linearizable.  Whatever the threads do and whatever is
evicted, the calls in the order in which they return are a run of cells that are
written once; a piece that `save` has stored is on disk and is what every later
`get` returns.
-/
theorem calls_linearizable {l : List (CellEvent Nat Piece)} (hP : 0 < r.pieceSize)
    (hfile : r.writable = true ∨ r.file.length = r.size)
    (h : Records (step kMemLimit) returns anyStep (start r : Callers Thread) (x, l)) :
    ∃ m, run cellStep (pieces r) l = some m ∧
      ∀ i d, m i = some d → x.repo.read i = some d := by
  have hlinear : ∃ m, run cellStep (pieces r) l = some m ∧ Linear m x := by
    refine Reaches.history (I := fun x l => ∃ m,
      run cellStep (pieces r) l = some m ∧ Linear m x) h
      ⟨pieces r, rfl, linear_start hP hfile⟩ ?_
    rintro x l a x' - ⟨m, hrun, hm⟩ - hstep
    obtain ⟨m', hrun', hm'⟩ := hm.step hstep
    exact ⟨m', by rw [run_append, hrun, Option.bind_some, hrun'], hm'⟩
  obtain ⟨m, hrun, hm⟩ := hlinear
  exact ⟨m, hrun, hm.file⟩

/-- One thread stores two pieces, another reads the first again after it has been
evicted. -/
def twoThreads : Callers Bool × List (CellEvent Nat Piece) :=
  (run (recorded (step 2) returns) (start ⟨[], true, 3, 2, []⟩, [])
    [(false, .save 1 [9]), (false, .insert []), (true, .get 1),
      (false, .save 0 [7, 8]), (false, .insert [(1, [9])]), (true, .get 1),
      (true, .read), (true, .insert [(0, [7, 8])])]).get (by decide)

theorem calls_linearizable_twoThreads :
    twoThreads.2 = [.put 1 [9], .get 1 [9], .put 0 [7, 8], .get 1 [9]] ∧
      ∃ m, run cellStep (pieces ⟨[], true, 3, 2, []⟩) twoThreads.2 = some m ∧
        ∀ i d, m i = some d → twoThreads.1.repo.read i = some d := by
  have hrun : Records (step 2) returns anyStep (start ⟨[], true, 3, 2, []⟩) twoThreads :=
    (reachable_get _).mono fun _ _ _ => trivial
  exact ⟨by decide, calls_linearizable (by decide) (.inl rfl) hrun⟩

end Callers

end CntPeer
