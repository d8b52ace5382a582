import CntPeer.Main.Usable

/-!
# The cache within its limit

The loop of `ensureSpace` has no test for an empty cache.  It is safe as long as
no piece is larger than the limit and no save counts a piece that is still cached.
The sizes are the integers of the configuration.
-/

namespace CntPeer

namespace RepoCall

def index : RepoCall → Nat
  | .save i _ _ | .get i _ => i

def order : RepoCall → List CacheEntry
  | .save _ _ order | .get _ order => order

end RepoCall

namespace Main

open CntPeer.Foundation

inductive Opens (fileSize pieceSize : Int) : CountedRepository → Prop where
  | newFile :
      Opens fileSize pieceSize
        (StoredFile.newFile fileSize.toNat pieceSize.toNat).repo
  | existingFile (file : List UInt8) (h : (file.length : Int) = fileSize) :
      Opens fileSize pieceSize (StoredFile.existingFile file pieceSize.toNat).repo

variable (kMemLimit : Nat) (fileSize pieceSize : Int)

/-- A call of the repository; a negative size stops the process, in the
constructor of the buffer or in the panic of `save`. -/
def call (x : CountedRepository) : RepoCall → Option CountedRepository
  | .save i d order =>
      if pieceLength fileSize pieceSize i < 0 then none
      else (x.save kMemLimit order i d).toOption
  | .get i order =>
      if x.find i = none ∧ pieceLength fileSize pieceSize i < 0 then none
      else ((x.get kMemLimit order i).map Prod.fst).toOption

def requests (x : CountedRepository) : RepoCall → Option Nat
  | .save i d _ =>
      if (d.length : Int) = pieceLength fileSize pieceSize i ∧ x.writable then
        some d.length
      else none
  | .get i _ =>
      if x.find i = none ∧ 0 ≤ pieceLength fileSize pieceSize i then
        (x.read i).map List.length
      else none

/-- `ensureSpace` ends before the cache is empty, and there is room. -/
def Safe (x : CountedRepository) (c : RepoCall) : Prop :=
  ∀ size ∈ requests fileSize pieceSize x c,
    ∃ y, x.ensureSpace kMemLimit c.order size = some y ∧
      y.nCachedByte + size ≤ kMemLimit

/-- The entries are erased in some order, and a saved index is not cached by the
time there is room. -/
def Fresh (x : CountedRepository) (c : RepoCall) : Prop :=
  c.order.Perm x.cache ∧
    match c with
    | .save i d order => x.Displaces kMemLimit order i d.length
    | .get _ _ => True

structure Within (x : CountedRepository) : Prop where
  size : x.size = fileSize.toNat
  pieceSize : x.pieceSize = pieceSize.toNat
  exact : x.Exact
  limit : x.nCachedByte ≤ kMemLimit

variable {kMemLimit fileSize pieceSize} {x y : CountedRepository} {c : RepoCall}
  {i : Nat} {d : Piece} {order : List CacheEntry}

theorem pieceLength_le (h : 0 ≤ pieceLength fileSize pieceSize i) :
    pieceLength fileSize pieceSize i ≤ min pieceSize fileSize := by
  rw [pieceLength] at h ⊢
  have hmul := Int.mul_nonneg (Int.natCast_nonneg i) (by omega : 0 ≤ pieceSize)
  omega

theorem Within.expectedSize (hx : Within kMemLimit fileSize pieceSize x)
    (h : 0 ≤ pieceLength fileSize pieceSize i) :
    (x.expectedSize i : Int) = pieceLength fileSize pieceSize i := by
  rw [pieceLength] at h
  have hmul := Int.mul_nonneg (Int.natCast_nonneg i) (by omega : 0 ≤ pieceSize)
  obtain ⟨P, rfl⟩ := Int.eq_ofNat_of_zero_le (by omega : 0 ≤ pieceSize)
  obtain ⟨S, rfl⟩ := Int.eq_ofNat_of_zero_le (by omega : 0 ≤ fileSize)
  rw [PieceRepository.expectedSize, hx.size, hx.pieceSize, Int.toNat_natCast,
    Int.toNat_natCast, pieceLength]
  rw [← Int.natCast_mul] at h ⊢
  omega

theorem Within.requests_le (hx : Within kMemLimit fileSize pieceSize x) {size : Nat}
    (h : requests fileSize pieceSize x c = some size) :
    (size : Int) ≤ min pieceSize fileSize := by
  cases c with
  | save i d order =>
      rw [requests] at h
      split at h
      · rename_i hd
        cases h
        rw [hd.1]
        exact pieceLength_le (by omega)
      · contradiction
  | get i order =>
      rw [requests] at h
      split at h
      · rename_i hpos
        obtain ⟨d, hread, rfl⟩ := Option.map_eq_some_iff.mp h
        rw [PieceRepository.length_of_read hread, hx.expectedSize hpos.2]
        exact pieceLength_le hpos.2
      · contradiction

theorem Within.cachedBytes_le (hx : Within kMemLimit fileSize pieceSize x) :
    cachedBytes x.cache ≤ kMemLimit := by
  have hexact := hx.exact
  have hlimit := hx.limit
  rw [CountedRepository.Exact] at hexact
  omega

theorem Within.safe (hx : Within kMemLimit fileSize pieceSize x)
    (hsize : min pieceSize fileSize ≤ kMemLimit) (horder : c.order.Perm x.cache) :
    Safe kMemLimit fileSize pieceSize x c := by
  intro size h
  have hle := hx.requests_le h
  obtain ⟨kept, -, hspace⟩ := CountedRepository.ensureSpace_exact hx.exact horder
    (by omega : size ≤ kMemLimit)
  refine ⟨_, hspace, ?_⟩
  obtain ⟨⟨n, l⟩, hevict, heq⟩ := Option.map_eq_some_iff.mp hspace
  obtain ⟨-, -, -, hroom⟩ := evict_eq_some hevict
  rw [← heq]
  exact hroom

theorem Within.insert (hx : Within kMemLimit fileSize pieceSize x)
    (hsize : (d.length : Int) ≤ kMemLimit) (horder : order.Perm x.cache)
    (hfresh : x.Displaces kMemLimit order i d.length)
    (hinsert : x.insert kMemLimit order i d d.length = some y) :
    Within kMemLimit fileSize pieceSize y := by
  obtain ⟨kept, -, -, heq⟩ := CountedRepository.insert_exact hx.exact horder
    (by omega) hfresh
  obtain ⟨z, hspace, hz⟩ := Option.map_eq_some_iff.mp hinsert
  obtain ⟨⟨n, l⟩, hevict, rfl⟩ := Option.map_eq_some_iff.mp hspace
  obtain ⟨-, -, -, hroom⟩ := evict_eq_some hevict
  have hlimit : y.nCachedByte ≤ kMemLimit := by
    rw [← hz]
    exact hroom
  rw [heq] at hinsert
  cases hinsert
  exact ⟨hx.size, hx.pieceSize, rfl, hlimit⟩

theorem Within.call_of_requests (hx : Within kMemLimit fileSize pieceSize x) {size : Nat}
    (h : requests fileSize pieceSize x c = some size) :
    ∃ file d, d.length = size ∧
      (∀ i d' order, c = .save i d' order → d = d') ∧
      call kMemLimit fileSize pieceSize x c =
        CountedRepository.insert kMemLimit { x with file := file } c.order c.index d
          size := by
  cases c with
  | save i d order =>
      rw [requests] at h
      split at h
      · rename_i hd
        cases h
        have hexpected := hx.expectedSize (hd.1 ▸ Int.natCast_nonneg d.length)
        have hsize : x.expectedSize i = d.length := by omega
        refine ⟨writeAt 0 x.file (i * x.pieceSize) d, d, rfl,
          fun _ _ _ heq => (RepoCall.save.inj heq).2.1, ?_⟩
        rw [call, if_neg (by omega), CountedRepository.save, PieceRepository.write,
          if_neg (not_not_intro hsize.symm), if_pos hd.2, hsize]
        dsimp only [RepoCall.order, RepoCall.index]
        cases CountedRepository.insert kMemLimit
          { x with file := writeAt 0 x.file (i * x.pieceSize) d } order i d d.length <;> rfl
      · contradiction
  | get i order =>
      rw [requests] at h
      split at h
      · rename_i hpos
        obtain ⟨d, hread, rfl⟩ := Option.map_eq_some_iff.mp h
        refine ⟨x.file, d, rfl, fun _ _ _ heq => ?_, ?_⟩
        · cases heq
        · rw [call, if_neg (by omega), CountedRepository.get, hpos.1]
          dsimp only
          rw [hread, ← PieceRepository.length_of_read hread]
          dsimp only [RepoCall.order, RepoCall.index]
          cases x.insert kMemLimit order i d d.length <;> rfl
      · contradiction

theorem Within.call_of_not_requests (hx : Within kMemLimit fileSize pieceSize x)
    (h : requests fileSize pieceSize x c = none)
    (hcall : call kMemLimit fileSize pieceSize x c = some y) : y = x := by
  cases c with
  | save i d order =>
      rw [call] at hcall
      split at hcall
      · contradiction
      · rename_i hpos
        have hexpected := hx.expectedSize (Int.not_lt.mp hpos)
        have hnot : ¬ ((d.length : Int) = pieceLength fileSize pieceSize i ∧
            x.writable = true) := fun hd => by
          rw [requests, if_pos hd] at h
          cases h
        rw [CountedRepository.save, PieceRepository.write] at hcall
        by_cases hsize : d.length = x.expectedSize i
        · rw [if_neg (not_not_intro hsize),
            if_neg fun hw => hnot ⟨hsize ▸ hexpected, hw⟩] at hcall
          cases hcall
        · rw [if_pos hsize] at hcall
          cases hcall
  | get i order =>
      rw [call] at hcall
      split at hcall
      · contradiction
      · rename_i hnot
        rw [CountedRepository.get] at hcall
        cases hfind : x.find i with
        | some d =>
            rw [hfind] at hcall
            cases hcall
            rfl
        | none =>
            have hpos := Int.not_lt.mp fun hneg => hnot ⟨hfind, hneg⟩
            rw [requests, if_pos ⟨hfind, hpos⟩, Option.map_eq_none_iff] at h
            rw [hfind] at hcall
            dsimp only at hcall
            rw [h] at hcall
            cases hcall

theorem Within.call (hx : Within kMemLimit fileSize pieceSize x)
    (hsize : min pieceSize fileSize ≤ kMemLimit) (hfresh : Fresh kMemLimit x c)
    (hcall : call kMemLimit fileSize pieceSize x c = some y) :
    Within kMemLimit fileSize pieceSize y := by
  obtain ⟨horder, hfresh⟩ := hfresh
  cases hrequests : requests fileSize pieceSize x c with
  | none => exact hx.call_of_not_requests hrequests hcall ▸ hx
  | some size =>
      have hle := hx.requests_le hrequests
      obtain ⟨file, d, rfl, hsaved, heq⟩ := hx.call_of_requests hrequests
      have hx' : Within kMemLimit fileSize pieceSize { x with file := file } :=
        ⟨hx.size, hx.pieceSize, hx.exact, hx.limit⟩
      refine hx'.insert (by omega) horder ?_ (heq.symm.trans hcall)
      cases c with
      | save i d' order =>
          rw [hsaved i d' order rfl]
          exact hfresh
      | get i order =>
          rw [requests] at hrequests
          split at hrequests
          · rename_i hpos
            exact CountedRepository.displaces_of_find hpos.1 horder d.length
          · contradiction

theorem within_of_opens (h : Opens fileSize pieceSize x) :
    Within kMemLimit fileSize pieceSize x := by
  cases h with
  | newFile => exact ⟨rfl, rfl, rfl, Int.natCast_nonneg kMemLimit⟩
  | existingFile file h =>
      exact ⟨by rw [← h, Int.toNat_natCast]; rfl, rfl, rfl, Int.natCast_nonneg kMemLimit⟩

/-- The first save of a piece larger than the limit finds an empty cache. -/
theorem not_safe_of_large (h : kMemLimit < min pieceSize fileSize) :
    ¬ Safe kMemLimit fileSize pieceSize
      (StoredFile.newFile fileSize.toNat pieceSize.toNat).repo
      (.save 0 (.replicate (min pieceSize fileSize).toNat 0) []) := by
  intro hsafe
  have hlength : ((List.replicate (min pieceSize fileSize).toNat (0 : UInt8)).length : Int) =
      pieceLength fileSize pieceSize (0 : Nat) := by
    rw [List.length_replicate, pieceLength, Int.natCast_zero, Int.zero_mul, Int.sub_zero]
    omega
  obtain ⟨y, hspace, -⟩ := hsafe _ (if_pos ⟨hlength, rfl⟩)
  obtain ⟨e, hevict, -⟩ := Option.map_eq_some_iff.mp hspace
  have hfull : (kMemLimit : Int) <
      0 + ((List.replicate (min pieceSize fileSize).toNat (0 : UInt8)).length : Nat) := by
    rw [List.length_replicate]
    omega
  cases (evict_nil_eq_none hfull).symm.trans hevict

/-- Whatever is erased first, every call is safe and the cache stays within the
limit. -/
def AlwaysSafe (kMemLimit : Nat) (fileSize pieceSize : Int) : Prop :=
  ∀ start x, Opens fileSize pieceSize start →
    Reaches (call kMemLimit fileSize pieceSize) (Fresh kMemLimit) start x →
    cachedBytes x.cache ≤ kMemLimit ∧
      ∀ c, Fresh kMemLimit x c → Safe kMemLimit fileSize pieceSize x c

theorem not_alwaysSafe (h : kMemLimit < min pieceSize fileSize) :
    ¬ AlwaysSafe kMemLimit fileSize pieceSize := by
  intro hsafe
  have hfresh : Fresh kMemLimit
      (StoredFile.newFile fileSize.toNat pieceSize.toNat).repo
      (.save 0 (.replicate (min pieceSize fileSize).toNat 0) []) :=
    ⟨.refl _, CountedRepository.displaces_of_find rfl (.refl _) _⟩
  exact not_safe_of_large h ((hsafe _ _ .newFile .start).2 _ hfresh)

/--
In runs that do not count a cached piece again, eviction is safe exactly when no
piece of the file is larger than the limit.
-/
theorem eviction_safe (kMemLimit : Nat) (fileSize pieceSize : Int) :
    AlwaysSafe kMemLimit fileSize pieceSize ↔ min pieceSize fileSize ≤ kMemLimit := by
  constructor
  · intro h
    by_contra hlarge
    exact not_alwaysSafe (by omega) h
  · intro hsize start x hstart h
    have hx : Within kMemLimit fileSize pieceSize x :=
      h.invariant (I := Within kMemLimit fileSize pieceSize) (within_of_opens hstart)
        fun _ _ _ _ hs hok hstep => hs.call hsize hok hstep
    exact ⟨hx.cachedBytes_le, fun c hc => hx.safe hsize hc.1⟩

/-- A configuration with one piece of 20 MB is accepted. -/
theorem eviction_not_safe :
    Accepted emptyDisk 0 1001 (commonText "FileSize 20000000\nPieceSize 20000000\n")
        aloneText (aloneConfig (some 20000000) (some 20000000)) ∧
      ¬ AlwaysSafe pieceCacheSize 20000000 20000000 :=
  ⟨⟨by decide +kernel, rfl⟩, not_alwaysSafe (by decide)⟩

/-- Pieces that are small enough, but one is saved while it is cached: the counter
runs ahead until it asks for more than there is to erase. -/
example :
    (run (call 3 3 2) (StoredFile.newFile 3 2).repo
      [.save 1 [9] [], .save 1 [9] [(1, [9])], .save 0 [7, 8] [(1, [9])],
        .save 1 [9] [(0, [7, 8])], .save 1 [9] [(1, [9])]]).map
          (fun x => (x.nCachedByte, x.cache, (x.ensureSpace 3 x.cache 2).isNone)) =
      some (3, [(1, [9])], true) := by
  decide

end Main

end CntPeer
