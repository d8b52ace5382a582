import CntPeer.Foundation.NetworkOrder
import CntPeer.Foundation.Transition
import CntPeer.PieceRepository.Cache

/-!
# The repository as a plain file

Calls made one at a time.  Whatever `ensureSpace` evicts, `get` returns what was
stored last, and the stored pieces make up the file.
-/

namespace CntPeer

open CntPeer.Foundation

theorem ceilingDiv_int {S P : Nat} (hS : S < 2 ^ 31) (hP : 1 ≤ P) :
    wrap32 (((S : Int) + P - 1).tdiv P) = ceilingDiv S P := by
  have hcast : (S : Int) + P - 1 = ((S + P - 1 : Nat) : Int) := by omega
  have hquot : ((S + P - 1 : Nat) : Int).tdiv P =
      ((ceilingDiv S P : Nat) : Int) := rfl
  have hle : ceilingDiv S P ≤ S := by
    by_contra hlt
    have hbegin := lt_of_lt_ceilingDiv hP (Nat.lt_of_not_le hlt)
    have hmul := Nat.le_mul_of_pos_right S hP
    omega
  rw [hcast, hquot]
  exact wrap32_of_inWord (inWord_natCast (by omega))

/-- A repository, and what was last stored for each piece. -/
structure StoredFile where
  repo : CountedRepository
  stored : Nat → Option Piece

inductive RepoCall where
  | save (i : Nat) (d : Piece) (order : List CacheEntry)
  | get (i : Nat) (order : List CacheEntry)

namespace StoredFile

def newFile (size pieceSize : Nat) : StoredFile where
  repo :=
    { file := [], writable := true, size := size, pieceSize := pieceSize
      cache := [], nCachedByte := 0 }
  stored := fun _ => none

def existingFile (file : List UInt8) (pieceSize : Nat) : StoredFile where
  repo :=
    { file := file, writable := false, size := file.length
      pieceSize := pieceSize, cache := [], nCachedByte := 0 }
  stored := fun i =>
    if i < ceilingDiv file.length pieceSize then some (chunk file pieceSize i)
    else none

def step (kMemLimit : Nat) (x : StoredFile) : RepoCall → Option StoredFile
  | .save i d order =>
      match x.repo.save kMemLimit order i d with
      | .error _ => none
      | .ok repo =>
          some ⟨repo, fun j => if j = i then some d else x.stored j⟩
  | .get i order =>
      match x.repo.get kMemLimit order i with
      | .error _ => none
      | .ok (repo, _) => some { x with repo := repo }

/-- A piece of the file is saved once and has its size; `get` asks for stored
pieces. -/
def Proper (x : StoredFile) : RepoCall → Prop
  | .save i d order =>
      i < ceilingDiv x.repo.size x.repo.pieceSize ∧ x.stored i = none ∧
        d.length = x.repo.expectedSize i ∧ order.Perm x.repo.cache
  | .get i order => (x.stored i).isSome = true ∧ order.Perm x.repo.cache

instance (x : StoredFile) : (c : RepoCall) → Decidable (x.Proper c)
  | .save .. => inferInstanceAs (Decidable (_ ∧ _ ∧ _ ∧ _))
  | .get .. => inferInstanceAs (Decidable (_ ∧ _))

/-- The cache agrees with the stored pieces, and so does the file, which is no
longer than it should be. -/
structure Coherent (kMemLimit S P : Nat) (x : StoredFile) : Prop where
  size : x.repo.size = S
  pieceSize : x.repo.pieceSize = P
  exact : x.repo.Exact
  short : x.repo.file.length ≤ S
  cached : ∀ e ∈ x.repo.cache, x.stored e.1 = some e.2
  inside : ∀ i d, x.stored i = some d → i * P < S
  file : ∀ i d, x.stored i = some d →
    readAt x.repo.file (i * P) (min P (S - i * P)) = some d
  writable : x.repo.writable = true ∨ ∀ i, i * P < S → x.stored i ≠ none

variable {kMemLimit S P : Nat} {x x' : StoredFile} {i : Nat} {d : Piece}
  {order : List CacheEntry}

theorem Coherent.expectedSize (h : Coherent kMemLimit S P x) (i : Nat) :
    x.repo.expectedSize i = min P (S - i * P) := by
  rw [PieceRepository.expectedSize, h.pieceSize, h.size]

theorem Coherent.inserts (h : Coherent kMemLimit S P x)
    (hlimit : P ≤ kMemLimit) (horder : order.Perm x.repo.cache)
    (hd : d.length = min P (S - i * P)) (hnew : x.repo.find i = none) :
    ∃ kept, kept <:+ order ∧
      x.repo.insert kMemLimit order i d (x.repo.expectedSize i) =
        some { x.repo with
          nCachedByte := cachedBytes ((i, d) :: kept)
          cache := (i, d) :: kept } := by
  have hfresh : x.repo.Displaces kMemLimit order i d.length :=
    CountedRepository.displaces_of_find hnew horder d.length
  obtain ⟨kept, hkept, -, hinsert⟩ := CountedRepository.insert_exact h.exact
    horder (by omega) hfresh
  refine ⟨kept, hkept, ?_⟩
  rw [h.expectedSize, ← hd, hinsert]

theorem Coherent.get (h : Coherent kMemLimit S P x) (hlimit : P ≤ kMemLimit)
    (hi : x.stored i = some d) (horder : order.Perm x.repo.cache) :
    ∃ repo, x.repo.get kMemLimit order i = .ok (repo, d) ∧
      Coherent kMemLimit S P { x with repo := repo } := by
  unfold CountedRepository.get
  cases hfind : x.repo.find i with
  | some d' =>
      have hcached := h.cached _ (PieceRepository.mem_cache_of_find hfind)
      rw [hi] at hcached
      cases hcached
      exact ⟨_, rfl, h⟩
  | none =>
      have hread := h.file i d hi
      have hlen := (readAt_eq_some_iff.mp hread).2.1
      obtain ⟨kept, hkept, hinsert⟩ := h.inserts hlimit horder hlen hfind
      have hread' : x.repo.read i = some d := by
        rw [PieceRepository.read, h.expectedSize, h.pieceSize, hread]
      simp only [hread', hinsert]
      refine ⟨_, rfl, h.size, h.pieceSize, rfl, h.short, fun e he => ?_,
        h.inside, h.file, h.writable⟩
      rcases List.mem_cons.mp he with rfl | he
      · exact hi
      · exact h.cached e (horder.mem_iff.mp (hkept.subset he))

def written (x : StoredFile) (i : Nat) (d : Piece) : StoredFile :=
  { x with repo := { x.repo with
      file := writeAt 0 x.repo.file (i * x.repo.pieceSize) d } }

theorem Coherent.written (h : Coherent kMemLimit S P x)
    (hi : i * P < S) (hnew : x.stored i = none)
    (hd : d.length = min P (S - i * P)) :
    Coherent kMemLimit S P (x.written i d) := by
  refine ⟨h.size, h.pieceSize, h.exact, ?_, h.cached, h.inside, ?_, h.writable⟩
  · show (writeAt 0 x.repo.file _ d).length ≤ S
    have hshort := h.short
    by_cases hne : d = []
    · subst d
      exact hshort
    · rw [length_writeAt hne, h.pieceSize]
      omega
  · intro j d' hj
    change x.stored j = some d' at hj
    have hji : j ≠ i := by
      rintro rfl
      rw [hnew] at hj
      cases hj
    refine readAt_writeAt_disjoint (h.file j d' hj) ?_
    rw [h.pieceSize]
    exact chunk_disjoint hji (Nat.min_le_left _ _) (by omega)

theorem Coherent.save (h : Coherent kMemLimit S P x) (hP : 1 ≤ P)
    (hlimit : P ≤ kMemLimit) (hi : i * P < S) (hnew : x.stored i = none)
    (hd : d.length = min P (S - i * P)) (horder : order.Perm x.repo.cache) :
    ∃ repo, x.repo.save kMemLimit order i d = .ok repo ∧
      Coherent kMemLimit S P
        ⟨repo, fun j => if j = i then some d else x.stored j⟩ := by
  have hne : d ≠ [] := List.ne_nil_of_length_pos (by omega)
  have hwritable : x.repo.writable = true :=
    h.writable.resolve_right fun hall => hall i hi hnew
  have hfind : x.repo.find i = none := by
    cases hfind : x.repo.find i with
    | none => rfl
    | some d' =>
        have hcached := h.cached _ (PieceRepository.mem_cache_of_find hfind)
        rw [hnew] at hcached
        cases hcached
  have hwrite : x.repo.write i d =
      .ok (x.written i d).repo.toPieceRepository := by
    rw [PieceRepository.write, if_neg (by rw [h.expectedSize, hd]; exact nofun),
      if_pos hwritable]
    rfl
  have hw := h.written hi hnew hd
  obtain ⟨kept, hkept, hinsert⟩ := hw.inserts hlimit horder hd hfind
  unfold CountedRepository.save
  rw [hwrite]
  dsimp only
  rw [show x.repo.expectedSize i = (x.written i d).repo.expectedSize i from rfl,
    show ({ (x.written i d).repo.toPieceRepository with
      nCachedByte := x.repo.nCachedByte } : CountedRepository) =
      (x.written i d).repo from rfl, hinsert]
  refine ⟨_, rfl, hw.size, hw.pieceSize, rfl, hw.short, ?_, ?_, ?_,
    .inl hwritable⟩
  · intro e he
    rcases List.mem_cons.mp he with rfl | he
    · exact if_pos rfl
    · have hcached := h.cached e (horder.mem_iff.mp (hkept.subset he))
      have hei : e.1 ≠ i := by
        intro hei
        rw [hei, hnew] at hcached
        cases hcached
      simp [hei, hcached]
  · intro j d' hj
    dsimp only at hj
    split at hj
    · subst j
      exact hi
    · exact h.inside j d' hj
  · intro j d' hj
    dsimp only at hj
    split at hj
    · subst j
      cases hj
      rw [← hd]
      show readAt (writeAt 0 x.repo.file _ d) _ _ = _
      rw [h.pieceSize]
      exact readAt_writeAt_same hne
    · exact hw.file j d' hj

theorem coherent_newFile (kMemLimit S P : Nat) :
    Coherent kMemLimit S P (newFile S P) where
  size := rfl
  pieceSize := rfl
  exact := rfl
  short := Nat.zero_le S
  cached := nofun
  inside := nofun
  file := nofun
  writable := .inl rfl

theorem coherent_existingFile {F : List UInt8} (hP : 1 ≤ P) :
    Coherent kMemLimit F.length P (existingFile F P) where
  size := rfl
  pieceSize := rfl
  exact := rfl
  short := Nat.le_refl _
  cached := nofun
  inside := by
    intro i d hi
    simp only [existingFile] at hi
    split at hi
    · exact lt_of_lt_ceilingDiv hP ‹_›
    · cases hi
  file := by
    intro i d hi
    simp only [existingFile] at hi ⊢
    split at hi
    · cases hi
      exact readAt_chunk (Nat.le_of_lt (lt_of_lt_ceilingDiv hP ‹_›))
    · cases hi
  writable := by
    right
    intro i hi
    simp only [existingFile]
    rw [if_pos (lt_ceilingDiv hP hi)]
    exact nofun

theorem Coherent.step {c : RepoCall} (h : Coherent kMemLimit S P x)
    (hP : 1 ≤ P) (hlimit : P ≤ kMemLimit) (hok : x.Proper c)
    (hstep : x.step kMemLimit c = some x') : Coherent kMemLimit S P x' := by
  cases c with
  | save i d order =>
      obtain ⟨hi, hnew, hd, horder⟩ := hok
      rw [h.size, h.pieceSize] at hi
      rw [h.expectedSize] at hd
      obtain ⟨repo, hsave, hc⟩ :=
        h.save hP hlimit (lt_of_lt_ceilingDiv hP hi) hnew hd horder
      simp only [StoredFile.step, hsave] at hstep
      cases hstep
      exact hc
  | get i order =>
      obtain ⟨hi, horder⟩ := hok
      obtain ⟨d, hd⟩ := Option.isSome_iff_exists.mp hi
      obtain ⟨repo, hget, hc⟩ := h.get hlimit hd horder
      simp only [StoredFile.step, hget] at hstep
      cases hstep
      exact hc

theorem Coherent.complete (h : Coherent kMemLimit S P x) (hS : 1 ≤ S)
    (hP : 1 ≤ P) (hall : ∀ i, i < ceilingDiv S P → (x.stored i).isSome = true) :
    x.repo.file.length = S ∧ x.repo.file =
      (List.range (ceilingDiv S P)).flatMap fun i => (x.stored i).getD [] := by
  have hread : ∀ i, i * P < S → readAt x.repo.file (i * P) (min P (S - i * P)) =
      x.stored i := by
    intro i hi
    obtain ⟨d, hd⟩ := Option.isSome_iff_exists.mp (hall i (lt_ceilingDiv hP hi))
    rw [h.file i d hd, hd]
  have hlen : x.repo.file.length = S := by
    -- the last byte is read with its piece
    have hlast : (S - 1) / P * P < S := by
      have := Nat.div_mul_le_self (S - 1) P
      omega
    obtain ⟨d, hd⟩ := Option.isSome_iff_exists.mp
      (hall _ (lt_ceilingDiv hP hlast))
    have hin := (readAt_eq_some_iff.mp (h.file _ d hd)).1
    have hmod := Nat.div_add_mod (S - 1) P
    have hlt := Nat.mod_lt (S - 1) hP
    rw [Nat.mul_comm] at hmod
    have hshort := h.short
    omega
  refine ⟨hlen, ?_⟩
  have hchunk : ∀ i ∈ List.range (ceilingDiv S P),
      chunk x.repo.file P i = (x.stored i).getD [] := by
    intro i hi
    have hbegin := lt_of_lt_ceilingDiv hP (List.mem_range.mp hi)
    rw [← hread i hbegin, ← hlen, readAt_chunk (by omega)]
    rfl
  calc x.repo.file
      = x.repo.file.take (ceilingDiv S P * P) := by
        rw [List.take_of_length_le]
        by_contra hlt
        exact absurd (lt_ceilingDiv hP (show ceilingDiv S P * P < S by omega))
          (Nat.lt_irrefl _)
    _ = (List.range (ceilingDiv S P)).flatMap (chunk x.repo.file P) :=
        (flatMap_chunk _ _ _).symm
    _ = _ := List.flatMap_congr hchunk

/--
Calls made one at a time, in any order and with any evictions, on a new or an
existing file: `get` returns what was stored last for the piece; `save` of a
new piece succeeds and leaves the bytes of the others; and the file is the
stored pieces in order once they are all there.
-/
theorem repository_refines_file {start : StoredFile} (hS : 1 ≤ S)
    (hP : 1 ≤ P) (hlimit : P ≤ kMemLimit)
    (hstart : start = newFile S P ∨
      ∃ F : List UInt8, F.length = S ∧ start = existingFile F P)
    (h : Reaches (step kMemLimit) Proper start x) :
    (∀ i d order, x.stored i = some d → order.Perm x.repo.cache →
      ∃ repo, x.repo.get kMemLimit order i = .ok (repo, d)) ∧
    (∀ i d order, i < ceilingDiv S P → x.stored i = none →
      d.length = min P (S - i * P) → order.Perm x.repo.cache →
      ∃ repo, x.repo.save kMemLimit order i d = .ok repo ∧
        readAt repo.file (i * P) d.length = some d ∧
        ∀ j d', x.stored j = some d' →
          readAt x.repo.file (j * P) d'.length = some d' ∧
          readAt repo.file (j * P) d'.length = some d') ∧
    ((∀ i, i < ceilingDiv S P → (x.stored i).isSome = true) →
      x.repo.file.length = S ∧ x.repo.file =
        (List.range (ceilingDiv S P)).flatMap fun i =>
          (x.stored i).getD []) := by
  have hc : Coherent kMemLimit S P x := by
    refine h.invariant (I := Coherent kMemLimit S P) ?_
      fun _ _ _ _ ih hok hstep => ih.step hP hlimit hok hstep
    rcases hstart with rfl | ⟨F, rfl, rfl⟩
    · exact coherent_newFile kMemLimit S P
    · exact coherent_existingFile hP
  have hread : ∀ {y : StoredFile}, Coherent kMemLimit S P y → ∀ j d',
      y.stored j = some d' →
        readAt y.repo.file (j * P) d'.length = some d' := by
    intro y hy j d' hj
    have hfile := hy.file j d' hj
    rwa [← (readAt_eq_some_iff.mp hfile).2.1] at hfile
  refine ⟨fun i d order hi horder => ?_, fun i d order hi hnew hd horder => ?_,
    hc.complete hS hP⟩
  · obtain ⟨repo, hget, -⟩ := hc.get hlimit hi horder
    exact ⟨repo, hget⟩
  · obtain ⟨repo, hsave, hc'⟩ :=
      hc.save hP hlimit (lt_of_lt_ceilingDiv hP hi) hnew hd horder
    refine ⟨repo, hsave, hread hc' i d (if_pos rfl), fun j d' hj => ?_⟩
    refine ⟨hread hc j d' hj, hread hc' j d' ?_⟩
    have hji : j ≠ i := by
      rintro rfl
      rw [hnew] at hj
      cases hj
    exact (if_neg hji).trans hj

/-- Three bytes in two pieces, with room for one piece in the cache; the short
last piece comes first and is evicted. -/
def evicted : StoredFile :=
  (run (checkedStep (step 2) Proper) (newFile 3 2)
    [.save 1 [9] [], .save 0 [7, 8] [(1, [9])]]).get (by decide)

theorem repository_refines_file_evicted :
    evicted.repo.find 1 = none ∧
      (∃ repo, evicted.repo.get 2 evicted.repo.cache 1 = .ok (repo, [9])) ∧
      evicted.repo.file = [7, 8, 9] := by
  have hrun : Reaches (step 2) Proper (newFile 3 2) evicted := reaches_get _
  have h := repository_refines_file (by decide) (by decide) (by decide)
    (.inl rfl) hrun
  exact ⟨by decide, h.1 1 [9] _ (by decide) (.refl _),
    (h.2.2 (by decide)).2.trans (by decide)⟩

end StoredFile

end CntPeer
