import CntPeer.Foundation.Transition
import CntPeer.PieceRepository.Cache

/-!
# Byte accounting under concurrency

Any number of threads call `get` and `save`; the lookup, the file access and the
insertion of a call are separate steps.  `get` inserts without looking again, so
two threads that miss the same piece both count it, and only one is cached.
-/

namespace CntPeer

open CntPeer.Foundation

inductive Call where
  | idle
  | reading (i : Nat)
  | caching (i : Nat) (d : Piece)
  | saving (i : Nat) (d : Piece)
  deriving DecidableEq

structure Callers (Thread : Type) where
  repo : CountedRepository
  call : Thread → Call
  owned : List Nat
  begun : List Nat

inductive CallAct where
  | get (i : Nat)
  | read
  | save (i : Nat) (d : Piece)
  | insert (order : List CacheEntry)

namespace Callers

variable {Thread : Type}

def start (r : PieceRepository) : Callers Thread :=
  let owned := if r.writable then [] else
    List.range (ceilingDiv r.size r.pieceSize)
  { repo := { r with cache := [], nCachedByte := 0 }
    call := fun _ => .idle
    owned := owned
    begun := owned }

def goto [DecidableEq Thread] (x : Callers Thread) (t : Thread) (c : Call) :
    Callers Thread :=
  { x with call := fun u => if u = t then c else x.call u }

def inserted [DecidableEq Thread] (kMemLimit : Nat) (x : Callers Thread)
    (t : Thread) (order : List CacheEntry) : Option (Callers Thread) :=
  match x.call t with
  | .caching i d =>
      (x.repo.insert kMemLimit order i d (x.repo.expectedSize i)).map
        fun repo => { x.goto t .idle with repo := repo }
  | .saving i d =>
      (x.repo.insert kMemLimit order i d (x.repo.expectedSize i)).map
        fun repo => { x.goto t .idle with repo := repo, owned := i :: x.owned }
  | _ => none

/-- One section of thread `t`: `get` asks for owned pieces, and a piece of the
file is saved once. -/
def step [DecidableEq Thread] (kMemLimit : Nat) (x : Callers Thread) :
    Thread × CallAct → Option (Callers Thread)
  | (t, .get i) =>
      if x.call t = .idle ∧ i ∈ x.owned then
        match x.repo.find i with
        | some _ => some x
        | none => some (x.goto t (.reading i))
      else none
  | (t, .read) =>
      match x.call t with
      | .reading i => (x.repo.read i).map fun d => x.goto t (.caching i d)
      | _ => none
  | (t, .save i d) =>
      if x.call t = .idle ∧ i ∉ x.begun ∧ i * x.repo.pieceSize < x.repo.size then
        match x.repo.write i d with
        | .error _ => none
        | .ok r => some { x.goto t (.saving i d) with
            repo := { r with nCachedByte := x.repo.nCachedByte }
            begun := i :: x.begun }
      else none
  | (t, .insert order) =>
      if order.Perm x.repo.cache then x.inserted kMemLimit t order else none

/-- A piece that `get` inserts is no longer cached when there is room for it. -/
def Fresh (kMemLimit : Nat) (x : Callers Thread) : Thread × CallAct → Prop
  | (t, .insert order) =>
      match x.call t with
      | .caching i d => x.repo.Displaces kMemLimit order i d.length
      | _ => True
  | _ => True

def CallLocal (r : PieceRepository) (owned begun : List Nat) : Call → Prop
  | .idle => True
  | .reading i => i ∈ owned
  | .caching i d => i ∈ owned ∧ d.length = r.expectedSize i
  | .saving i d => i ∈ begun ∧ i ∉ owned ∧ d.length = r.expectedSize i

/-- The counter is exact; what is cached or asked for is owned, and a piece is
saved by one thread, before it is owned. -/
structure Accounted (kMemLimit : Nat) (x : Callers Thread) : Prop where
  pieceSize : x.repo.pieceSize ≤ kMemLimit
  exact : x.repo.Exact
  cached : ∀ e ∈ x.repo.cache, e.1 ∈ x.owned
  begun : ∀ i ∈ x.owned, i ∈ x.begun
  locals : ∀ t, CallLocal x.repo.toPieceRepository x.owned x.begun (x.call t)
  alone : ∀ t u i d d', x.call t = .saving i d → x.call u = .saving i d' →
    t = u

variable {kMemLimit : Nat} {x x' : Callers Thread} {t : Thread}
  {order : List CacheEntry} {i : Nat} {d : Piece}

theorem Accounted.inserts (h : Accounted kMemLimit x)
    (horder : order.Perm x.repo.cache)
    (hcall : x.call t = .caching i d ∧
        x.repo.Displaces kMemLimit order i d.length ∨
      x.call t = .saving i d) :
    ∃ kept, kept <:+ order ∧
      x.repo.insert kMemLimit order i d (x.repo.expectedSize i) =
        some { x.repo with
          nCachedByte := cachedBytes ((i, d) :: kept)
          cache := (i, d) :: kept } := by
  have hl := h.locals t
  have hlen : d.length = x.repo.expectedSize i := by
    rcases hcall with ⟨hcall, -⟩ | hcall
    all_goals
      rw [hcall] at hl
    · exact hl.2
    · exact hl.2.2
  have hfits : d.length ≤ kMemLimit := by
    rw [hlen]
    exact Nat.le_trans (Nat.min_le_left _ _) h.pieceSize
  have hnew : x.repo.Displaces kMemLimit order i d.length := by
    rcases hcall with ⟨-, hnew⟩ | hcall
    · exact hnew
    · -- a piece that is being saved is not cached yet
      rw [hcall] at hl
      intro pre e post hsplit he
      have hmem : e ∈ x.repo.cache :=
        horder.mem_iff.mp (by rw [hsplit]; simp)
      exact absurd (he ▸ h.cached e hmem) hl.2.1
  obtain ⟨kept, hkept, -, hinsert⟩ :=
    CountedRepository.insert_exact h.exact horder hfits hnew
  exact ⟨kept, hkept, hlen ▸ hinsert⟩

theorem accounted_start {r : PieceRepository} (hsize : r.pieceSize ≤ kMemLimit) :
    Accounted kMemLimit (start r : Callers Thread) where
  pieceSize := hsize
  exact := rfl
  cached := nofun
  begun := fun _ h => h
  locals := fun _ => trivial
  alone := nofun

variable [DecidableEq Thread]

theorem goto_call {c : Call} (u : Thread) :
    (x.goto t c).call u = if u = t then c else x.call u := rfl

theorem Accounted.goto (h : Accounted kMemLimit x) {c : Call}
    (hc : CallLocal x.repo.toPieceRepository x.owned x.begun c)
    (hsave : ∀ i d, c ≠ .saving i d) : Accounted kMemLimit (x.goto t c) := by
  refine ⟨h.pieceSize, h.exact, h.cached, h.begun, fun u => ?_, ?_⟩
  · rw [goto_call]
    split
    · exact hc
    · exact h.locals u
  · intro u v i d d' hu hv
    rw [goto_call] at hu hv
    split at hu
    · exact absurd hu (hsave i d)
    · split at hv
      · exact absurd hv (hsave i d')
      · exact h.alone u v i d d' hu hv

theorem Accounted.inserted (h : Accounted kMemLimit x)
    (horder : order.Perm x.repo.cache)
    (hok : x.Fresh kMemLimit (t, .insert order))
    (hstep : x.inserted kMemLimit t order = some x') :
    Accounted kMemLimit x' := by
  have hl := h.locals t
  have hidle := h.goto (t := t) (c := .idle) trivial (by simp)
  cases hcall : x.call t with
  | idle | reading i =>
      simp only [Callers.inserted, hcall] at hstep
      contradiction
  | caching i d =>
      simp only [Fresh, hcall] at hok hl
      obtain ⟨kept, hkept, hinsert⟩ := h.inserts horder (.inl ⟨hcall, hok⟩)
      simp only [Callers.inserted, hcall, hinsert, Option.map_some] at hstep
      cases hstep
      refine ⟨h.pieceSize, rfl, fun e he => ?_, h.begun, hidle.locals,
        hidle.alone⟩
      rcases List.mem_cons.mp he with rfl | he
      · exact hl.1
      · exact h.cached e (horder.mem_iff.mp (hkept.subset he))
  | saving i d =>
      simp only [hcall] at hl
      obtain ⟨kept, hkept, hinsert⟩ := h.inserts horder (.inr hcall)
      simp only [Callers.inserted, hcall, hinsert, Option.map_some] at hstep
      cases hstep
      refine ⟨h.pieceSize, rfl, fun e he => ?_, fun j hj => ?_, fun u => ?_,
        hidle.alone⟩
      · rcases List.mem_cons.mp he with rfl | he
        · exact List.mem_cons_self
        · exact List.mem_cons_of_mem _
            (h.cached e (horder.mem_iff.mp (hkept.subset he)))
      · rcases List.mem_cons.mp hj with rfl | hj
        · exact hl.1
        · exact h.begun j hj
      · have hu := hidle.locals u
        cases hcall' : (x.goto t .idle).call u with
        | idle => trivial
        | reading j =>
            rw [hcall'] at hu
            exact List.mem_cons_of_mem _ hu
        | caching j d' =>
            rw [hcall'] at hu
            exact ⟨List.mem_cons_of_mem _ hu.1, hu.2⟩
        | saving j d' =>
            rw [hcall'] at hu
            refine ⟨hu.1, fun hj => ?_, hu.2.2⟩
            rcases List.mem_cons.mp hj with rfl | hj
            · rw [goto_call] at hcall'
              split at hcall'
              · cases hcall'
              · rename_i hne
                exact hne (h.alone u t j d' d hcall' hcall)
            · exact hu.2.1 hj

theorem Accounted.save (h : Accounted kMemLimit x) {r : PieceRepository}
    (hbegun : i ∉ x.begun) (hwrite : x.repo.write i d = .ok r) :
    Accounted kMemLimit { x.goto t (.saving i d) with
      repo := { r with nCachedByte := x.repo.nCachedByte }
      begun := i :: x.begun } := by
  have howned : i ∉ x.owned := fun hi => hbegun (h.begun i hi)
  unfold PieceRepository.write at hwrite
  split at hwrite
  · contradiction
  rename_i hlen
  rw [ne_eq, not_not] at hlen
  split at hwrite
  · cases hwrite
    refine ⟨h.pieceSize, h.exact, h.cached,
      fun j hj => List.mem_cons_of_mem _ (h.begun j hj), fun u => ?_, ?_⟩
    · show CallLocal _ _ _ ((x.goto t (.saving i d)).call u)
      rw [goto_call]
      split
      · exact ⟨List.mem_cons_self, howned, hlen⟩
      · have hu := h.locals u
        cases hcall : x.call u with
        | saving j d' =>
            rw [hcall] at hu
            exact ⟨List.mem_cons_of_mem _ hu.1, hu.2⟩
        | _ =>
            rw [hcall] at hu
            exact hu
    · have hnot : ∀ u d', x.call u ≠ .saving i d' := by
        intro u d' hu
        have hl := h.locals u
        rw [hu] at hl
        exact hbegun hl.1
      intro u v j d₁ d₂ hu hv
      simp only [goto_call] at hu hv
      split at hu
      · split at hv
        · simp_all
        · cases hu
          exact absurd hv (hnot v d₂)
      · split at hv
        · cases hv
          exact absurd hu (hnot u d₁)
        · exact h.alone u v j d₁ d₂ hu hv
  · contradiction

theorem Accounted.step {a : Thread × CallAct} (h : Accounted kMemLimit x)
    (hok : x.Fresh kMemLimit a) (hstep : x.step kMemLimit a = some x') :
    Accounted kMemLimit x' := by
  obtain ⟨t, a⟩ := a
  cases a with
  | get i =>
      simp only [Callers.step] at hstep
      split at hstep
      · rename_i hen
        split at hstep
        · cases hstep
          exact h
        · cases hstep
          exact h.goto hen.2 (by simp)
      · contradiction
  | read =>
      simp only [Callers.step] at hstep
      cases hcall : x.call t with
      | reading i =>
          simp only [hcall, Option.map_eq_some_iff] at hstep
          obtain ⟨d, hread, rfl⟩ := hstep
          have hl := h.locals t
          rw [hcall] at hl
          exact h.goto ⟨hl, (readAt_eq_some_iff.mp hread).2.1⟩ (by simp)
      | _ =>
          rw [hcall] at hstep
          contradiction
  | save i d =>
      simp only [Callers.step] at hstep
      split at hstep
      · rename_i hen
        split at hstep
        · contradiction
        · rename_i r hwrite
          cases hstep
          exact h.save hen.2.1 hwrite
      · contradiction
  | insert order =>
      simp only [Callers.step] at hstep
      split at hstep
      · exact h.inserted ‹_› hok hstep
      · contradiction

/--
In every run in which `get` inserts a piece only when it is no longer cached:
`n_cached_byte` is the size of what is cached, and `ensureSpace` finds room for
every piece that a thread is about to insert.
-/
theorem accounting_exact {r : PieceRepository}
    (hsize : r.pieceSize ≤ kMemLimit)
    (h : Reaches (step kMemLimit) (Fresh kMemLimit) (start r) x) :
    x.repo.nCachedByte = cachedBytes x.repo.cache ∧
      ∀ t i d order, x.call t = .caching i d ∨ x.call t = .saving i d →
        order.Perm x.repo.cache →
        (x.repo.ensureSpace kMemLimit order d.length).isSome = true := by
  have hacc : Accounted kMemLimit x :=
    h.invariant (I := Accounted kMemLimit) (accounted_start hsize)
      fun _ _ _ _ ih hok hstep => ih.step hok hstep
  refine ⟨hacc.exact, fun t i d order hcall horder => ?_⟩
  have hlen : d.length ≤ kMemLimit := by
    have hl := hacc.locals t
    rcases hcall with hcall | hcall
    all_goals
      rw [hcall] at hl
    · exact hl.2 ▸ Nat.le_trans (Nat.min_le_left _ _) hacc.pieceSize
    · exact hl.2.2 ▸ Nat.le_trans (Nat.min_le_left _ _) hacc.pieceSize
  obtain ⟨kept, -, hspace⟩ :=
    CountedRepository.ensureSpace_exact hacc.exact horder hlen
  rw [hspace]
  rfl

def oneByte : PieceRepository := ⟨[7], false, 1, 1, []⟩

def overlapping : List (Bool × CallAct) :=
  [(false, .get 0), (true, .get 0), (false, .read), (true, .read),
    (false, .insert [])]

def overlapped : Callers Bool :=
  (run (step pieceCacheSize) (start oneByte) overlapping).get (by decide)

theorem accounting_exact_overlapped :
    oneByte.pieceSize ≤ pieceCacheSize ∧
      overlapped.repo.nCachedByte = 1 ∧
      overlapped.repo.nCachedByte = cachedBytes overlapped.repo.cache := by
  have hrun : Reaches (step pieceCacheSize) (Fresh pieceCacheSize)
      (start oneByte) overlapped :=
    .tail (.tail (.tail (.tail (.tail .start trivial (a := (false, .get 0)) rfl)
      trivial (a := (true, .get 0)) rfl) trivial (a := (false, .read)) rfl)
      trivial (a := (true, .read)) rfl)
      (fun pre e post h => by simp at h) (a := (false, .insert [])) rfl
  exact ⟨by decide, by decide, (accounting_exact (by decide) hrun).1⟩

/-- The second thread counts the piece again, which is cached already. -/
theorem counted_twice :
    ¬ ∀ (r : PieceRepository) (x : Callers Bool), 1 ≤ r.pieceSize →
      r.pieceSize ≤ pieceCacheSize →
      Reachable (step pieceCacheSize) (start r) x →
      x.repo.nCachedByte = cachedBytes x.repo.cache := by
  intro h
  have hrun : Reachable (step pieceCacheSize) (start oneByte)
      ((run (step pieceCacheSize) (start oneByte)
        (overlapping ++ [(true, .insert [(0, [7])])])).get (by decide)) :=
    reachable_get _
  exact absurd (h oneByte _ (by decide) (by decide) hrun) (by decide)

end Callers

end CntPeer
