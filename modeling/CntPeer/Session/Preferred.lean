import Mathlib.Algebra.Group.Nat.Defs
import Mathlib.Algebra.Ring.Int.Defs
import Mathlib.Data.Prod.Lex
import CntPeer.Foundation.Selection
import CntPeer.Session.Collection

/-!
# Who becomes a preferred neighbour

The comparator of `pnAlgorithm` ranks the interested sessions by what they
delivered, then the other active ones, then the inactive ones.  Only inactive
sessions are filtered out of the first `nn_pn`.
-/

namespace CntPeer

open CntPeer.Foundation

namespace SessionCollection

variable (sc : SessionCollection) (v : Sid → Session)

def delta (e : Sn) : Int := (sc.neo e.s : Int) - sc.old e.s

def isInterested (e : Sn) : Bool := decide ((v e.s).peerInterest = .interested)

def isCandidate (e : Sn) : Bool := (v e.s).isActive && isInterested v e

/-- The classes of the comparator, then the byte counts; the least rank comes
first. -/
def rank (e : Sn) : ℕ ×ₗ ℤ :=
  if (v e.s).isActive then
    if isInterested v e then toLex (0, -sc.delta e) else toLex (1, 0)
  else toLex (2, 0)

variable {sc v} {sc' : SessionCollection} {order : List Sn} {posts : Posts}
  {e : Sn}

/-- The byte counts are `int64_t` and never negative, so `neo - old` does not
overflow. -/
theorem delta_bounds (hneo : sc.neo e.s < 2 ^ 63) (hold : sc.old e.s < 2 ^ 63) :
    -2 ^ 63 < sc.delta e ∧ sc.delta e < 2 ^ 63 := by
  unfold delta
  constructor
  all_goals omega

theorem precedes_iff (a b : Sn) :
    sc.precedes v a b = true ↔ sc.rank v a < sc.rank v b := by
  have hdelta : (sc.neo b.s : Int) - sc.old b.s < sc.neo a.s - sc.old a.s ↔
      sc.delta b < sc.delta a := .rfl
  unfold precedes rank isInterested
  cases ha : (v a.s).isActive
  all_goals
    cases hb : (v b.s).isActive
    all_goals
      cases hia : (v a.s).peerInterest
      all_goals
        cases hib : (v b.s).peerInterest
        all_goals simp [Prod.Lex.toLex_lt_toLex, hdelta]

theorem initial_isActive : Initial (sc.precedes v) fun e => (v e.s).isActive := by
  intro a b hb ha
  simp [precedes, hb, ha]

theorem initial_isCandidate : Initial (sc.precedes v) (isCandidate v) := by
  intro a b hb ha
  rw [precedes_iff]
  simp only [isCandidate, Bool.and_eq_true] at hb
  unfold rank
  rw [if_pos hb.1, if_pos hb.2]
  split
  · rename_i hactive
    have hnot : isInterested v a = false := by
      simpa [isCandidate, hactive] using ha
    simp [hnot, Prod.Lex.toLex_lt_toLex]
  · simp [Prod.Lex.toLex_lt_toLex]

theorem delta_le_of_not_precedes {a b : Sn} (ha : isCandidate v a = true)
    (hb : isCandidate v b = true) (h : sc.precedes v b a = false) :
    sc.delta b ≤ sc.delta a := by
  have hnot : ¬sc.rank v b < sc.rank v a := by
    rw [← precedes_iff, h]
    exact Bool.false_ne_true
  simp only [isCandidate, Bool.and_eq_true] at ha hb
  unfold rank at hnot
  rw [if_pos ha.1, if_pos ha.2, if_pos hb.1, if_pos hb.2,
    Prod.Lex.toLex_lt_toLex] at hnot
  simp only [lt_self_iff_false, true_and, false_or] at hnot
  omega

theorem all_candidates_iff {l : List Sn} :
    (∀ e ∈ l, (v e.s).isActive = true → isCandidate v e = true) ↔
      l.countP (fun e => (v e.s).isActive) = l.countP (isCandidate v) := by
  have hboth : (l.filter fun e => (v e.s).isActive).countP (isCandidate v) =
      l.countP (isCandidate v) := by
    rw [List.countP_filter]
    refine List.countP_congr fun e _ => ?_
    simp only [isCandidate, Bool.and_eq_true]
    exact and_iff_left_of_imp And.left
  rw [← hboth, List.countP_eq_length_filter, eq_comm, List.countP_eq_length]
  simp only [List.mem_filter, and_imp]

theorem countP_candidate_le (l : List Sn) :
    l.countP (isCandidate v) ≤ l.countP fun e => (v e.s).isActive := by
  refine List.countP_mono_left fun e _ he => ?_
  simp only [isCandidate, Bool.and_eq_true] at he
  exact he.1

section Arranged

variable (horder : (sc.updateByteCounts v).NthElement v sc.nnPn order)

include horder

theorem selects : Selects ((sc.updateByteCounts v).precedes v) sc.nnPn sc.ss order :=
  horder

theorem size_newPnSet : (sc.newPnSet v order).size =
    min sc.nnPn (sc.ss.countP fun e => (v e.s).isActive) := by
  rw [← (selects horder).countP_take initial_isActive, newPnSet,
    SortedVec.size_addAll, selected, ← List.countP_eq_length_filter]
  exact Nat.zero_add _

end Arranged

theorem pnSet_of_pnAlgorithm (h : sc.pnAlgorithm v order = some (sc', posts)) :
    sc'.pnSet = sc.newPnSet v order ∧
      ∀ e, sc'.delta e = (sc.updateByteCounts v).delta e := by
  unfold pnAlgorithm at h
  split at h
  · cases h
    exact ⟨rfl, fun _ => rfl⟩
  · contradiction

/--
After `pnAlgorithm` the preferred neighbours are active and their peers
interested, and as many as `n_pn` and the candidates allow, exactly when there
are candidates for all places or no other session is active.
-/
theorem preferred_interested
    (horder : (sc.updateByteCounts v).NthElement v sc.nnPn order)
    (h : sc.pnAlgorithm v order = some (sc', posts)) :
    ((∀ e ∈ sc'.pnSet.items, (v e.s).isActive = true ∧
          (v e.s).peerInterest = .interested) ∧
        sc'.pnSet.size = min sc.nPn (sc.ss.countP (isCandidate v))) ↔
      min sc.nPn sc.ss.length ≤ sc.ss.countP (isCandidate v) ∨
        ∀ e ∈ sc.ss, (v e.s).isActive = true →
          (v e.s).peerInterest = .interested := by
  have hsel := selects horder
  have hset := (pnSet_of_pnAlgorithm h).1
  have hactive := hsel.countP_take initial_isActive
  have hcand := hsel.countP_take initial_isCandidate
  have hsize := size_newPnSet horder
  have hle := countP_candidate_le (v := v) sc.ss
  have hlen := List.countP_le_length (l := sc.ss) (p := isCandidate v)
  have htaken : (∀ e ∈ sc'.pnSet.items, (v e.s).isActive = true ∧
        (v e.s).peerInterest = .interested) ↔
      (order.take sc.nnPn).countP (fun e => (v e.s).isActive) =
        (order.take sc.nnPn).countP (isCandidate v) := by
    rw [← all_candidates_iff, hset]
    simp only [mem_newPnSet, mem_selected, and_imp, isCandidate, isInterested,
      Bool.and_eq_true, decide_eq_true_eq]
  have hall : (∀ e ∈ sc.ss, (v e.s).isActive = true →
        (v e.s).peerInterest = .interested) ↔
      sc.ss.countP (fun e => (v e.s).isActive) =
        sc.ss.countP (isCandidate v) := by
    rw [← all_candidates_iff]
    refine forall₂_congr fun e _ => imp_congr_right fun he => ?_
    simp [isCandidate, isInterested, he]
  rw [htaken, hall, hset, hsize, hactive, hcand]
  unfold nnPn
  omega

def halfInterested : Sid → Session := fun s =>
  { isActive := true
    peerInterest := if s = 0 then .interested else .unknown }

def atTick (ss : List Sn) : SessionCollection :=
  { init 2 1 with ss := ss }

theorem preferred_interested_one :
    ∃ sc' posts, (atTick [⟨1, 1⟩, ⟨0, 0⟩]).pnAlgorithm halfInterested
        [⟨0, 0⟩, ⟨1, 1⟩] = some (sc', posts) ∧
      (∀ e ∈ sc'.pnSet.items, (halfInterested e.s).isActive = true ∧
        (halfInterested e.s).peerInterest = .interested) ∧
      sc'.pnSet.size = 1 := by
  have horder : ((atTick [⟨1, 1⟩, ⟨0, 0⟩]).updateByteCounts
      halfInterested).NthElement halfInterested
        (atTick [⟨1, 1⟩, ⟨0, 0⟩]).nnPn [⟨0, 0⟩, ⟨1, 1⟩] := by decide
  refine ⟨_, _, if_pos (by decide), ?_⟩
  exact (preferred_interested horder (if_pos (by decide))).mpr (.inl (by decide))

/-- A session whose peer has not said anything yet becomes a preferred
neighbour. -/
theorem preferred_not_interested :
    ¬ ∀ (sc : SessionCollection) (v : Sid → Session) (order : List Sn)
      (sc' : SessionCollection) (posts : Posts),
      (sc.updateByteCounts v).NthElement v sc.nnPn order →
      sc.pnAlgorithm v order = some (sc', posts) →
      (∀ e ∈ sc'.pnSet.items, (v e.s).isActive = true ∧
          (v e.s).peerInterest = .interested) ∧
        sc'.pnSet.size = min sc.nPn (sc.ss.countP (isCandidate v)) := by
  intro h
  have hsize := (h (atTick [⟨1, 1⟩]) halfInterested [⟨1, 1⟩] _ _ (by decide)
    (if_pos (by decide))).2
  exact absurd hsize (by decide)

/--
The comparator is a strict weak order, the byte counts it compares do not
overflow, and the selection is optimal: when an active session with an
interested peer is left out, all places are taken by such sessions, and none of
them delivered fewer bytes.
-/
theorem selection_optimal :
    IsStrictWeakOrder Sn (fun a b => sc.precedes v a b = true) ∧
    (∀ e, sc.neo e.s < 2 ^ 63 → sc.old e.s < 2 ^ 63 →
      -2 ^ 63 < sc.delta e ∧ sc.delta e < 2 ^ 63) ∧
    ∀ order sc' posts,
      (sc.updateByteCounts v).NthElement v sc.nnPn order →
      sc.pnAlgorithm v order = some (sc', posts) →
      ∀ x ∈ sc.ss, (v x.s).isActive = true →
        (v x.s).peerInterest = .interested → x ∉ sc'.pnSet.items →
        sc'.pnSet.size = sc.nnPn ∧ ∀ y ∈ sc'.pnSet.items,
          (v y.s).isActive = true ∧ (v y.s).peerInterest = .interested ∧
            sc'.delta x ≤ sc'.delta y := by
  refine ⟨strictWeakOrder_of_rank (sc.rank v) precedes_iff,
    fun e => delta_bounds, ?_⟩
  intro order sc' posts horder h x hx hactive hinterested hout
  obtain ⟨hset, hdelta⟩ := pnSet_of_pnAlgorithm h
  have hsel := selects horder
  have hxcand : isCandidate v x = true := by
    simp [isCandidate, isInterested, hactive, hinterested]
  have hxdrop : x ∈ order.drop sc.nnPn := by
    refine (hsel.mem_iff.mp hx).resolve_left fun htake => hout ?_
    rw [hset]
    exact mem_newPnSet.mpr (mem_selected.mpr ⟨htake, hactive⟩)
  have hall := hsel.all_taken initial_isCandidate hxdrop hxcand
  constructor
  · -- every place is taken by an active session
    have hfull := List.countP_eq_length.mpr hall
    rw [List.length_take, hsel.countP_take initial_isCandidate,
      hsel.1.length_eq] at hfull
    have hle := countP_candidate_le (v := v) sc.ss
    rw [hset, size_newPnSet horder]
    unfold nnPn at hfull ⊢
    omega
  · intro y hy
    rw [hset] at hy
    have hytake := (mem_selected.mp (mem_newPnSet.mp hy)).1
    have hycand := hall y hytake
    rw [hdelta, hdelta]
    have hle := delta_le_of_not_precedes hycand hxcand (hsel.2 y hytake x hxdrop)
    simp only [isCandidate, isInterested, Bool.and_eq_true,
      decide_eq_true_eq] at hycand
    exact ⟨hycand.1, hycand.2, hle⟩

def busy : Sid → Session := fun s =>
  { isActive := true, peerInterest := .interested
    recvBcnt := if s = 1 then 9 else s }

theorem selection_optimal_busiest :
    ∃ sc' posts, (atTick [⟨0, 0⟩, ⟨1, 1⟩, ⟨2, 2⟩]).pnAlgorithm busy
        [⟨1, 1⟩, ⟨0, 0⟩, ⟨2, 2⟩] = some (sc', posts) ∧
      sc'.pnSet.size = 1 ∧
      ∀ y ∈ sc'.pnSet.items, sc'.delta ⟨2, 2⟩ ≤ sc'.delta y := by
  have horder : ((atTick [⟨0, 0⟩, ⟨1, 1⟩, ⟨2, 2⟩]).updateByteCounts busy).NthElement
      busy (atTick [⟨0, 0⟩, ⟨1, 1⟩, ⟨2, 2⟩]).nnPn [⟨1, 1⟩, ⟨0, 0⟩, ⟨2, 2⟩] := by
    decide
  refine ⟨_, _, if_pos (by decide), ?_⟩
  obtain ⟨-, -, hoptimal⟩ := @selection_optimal (atTick [⟨0, 0⟩, ⟨1, 1⟩, ⟨2, 2⟩]) busy
  have hbest := hoptimal [⟨1, 1⟩, ⟨0, 0⟩, ⟨2, 2⟩] _ _ horder
    (if_pos (by decide)) ⟨2, 2⟩ (by decide) rfl rfl (by decide)
  exact ⟨hbest.1, fun y hy => (hbest.2 y hy).2.2⟩

end SessionCollection

end CntPeer
