import Mathlib.Data.List.Nodup
import Mathlib.Data.List.Perm.Subperm
import CntPeer.Main.Config

/-!
# The connect loop

`main` tries each prior peer once in a round and goes round until none is left.
Which attempts throw is arbitrary.
-/

namespace CntPeer.Main

/-- The locals of the block that connects, and the calls it has made. -/
structure Connecting where
  connSucc : List Bool
  nUnsuccConn : Int
  created : List PeerInfo
  tmpFailed : List Int
  deriving DecidableEq

namespace Connecting

def start (priorPeers : List PeerInfo) : Connecting where
  connSucc := List.replicate priorPeers.length false
  nUnsuccConn := priorPeers.length
  created := []
  tmpFailed := []

/-- The body of the inner loop; `fails i` when the connection to the peer throws. -/
def attempt (priorPeers : List PeerInfo) (fails : Nat → Bool) (x : Connecting)
    (i : Nat) : Connecting :=
  match x.connSucc[i]?, priorPeers[i]? with
  | some false, some peer =>
      if fails i then { x with tmpFailed := x.tmpFailed ++ [peer.peerId] }
      else
        { x with
          connSucc := x.connSucc.set i true
          nUnsuccConn := x.nUnsuccConn - 1
          created := x.created ++ [peer] }
  | _, _ => x

def round (priorPeers : List PeerInfo) (fails : Nat → Bool) (x : Connecting) :
    Connecting :=
  (List.range x.connSucc.length).foldl (attempt priorPeers fails) x

/-- `while (n_unsucc_conn > 0)`, from round `r` on; `none` when the fuel is used up. -/
def connect (priorPeers : List PeerInfo) (fails : Nat → Nat → Bool) :
    Nat → Nat → Connecting → Option Connecting
  | 0, _, _ => none
  | fuel + 1, r, x =>
      if 0 < x.nUnsuccConn then
        connect priorPeers fails fuel (r + 1) (x.round priorPeers (fails r))
      else some x

/-- The state in round `r`, after `k` peers have been tried. -/
def within (priorPeers : List PeerInfo) (fails : Nat → Nat → Bool) :
    Nat → Nat → Connecting
  | 0, k => (List.range k).foldl (attempt priorPeers (fails 0)) (start priorPeers)
  | r + 1, k =>
      (List.range k).foldl (attempt priorPeers (fails (r + 1)))
        (within priorPeers fails r priorPeers.length)

/-- The state when round `r` begins. -/
def entering (priorPeers : List PeerInfo) (fails : Nat → Nat → Bool) :
    Nat → Connecting
  | 0 => start priorPeers
  | r + 1 => within priorPeers fails r priorPeers.length

structure Tracks (priorPeers : List PeerInfo) (x : Connecting) (done : List Nat) :
    Prop where
  nodup : done.Nodup
  created : x.created = done.filterMap (priorPeers[·]?)
  length : x.connSucc.length = priorPeers.length
  succ : ∀ i, x.connSucc[i]? = some true ↔ i ∈ done
  left : x.nUnsuccConn = priorPeers.length - done.length

variable {priorPeers : List PeerInfo} {x : Connecting} {done : List Nat}

theorem tracks_start (priorPeers : List PeerInfo) :
    Tracks priorPeers (start priorPeers) [] where
  nodup := .nil
  created := rfl
  length := List.length_replicate
  succ i := by
    rw [start, List.getElem?_replicate]
    split <;> simp
  left := by simp [start]

theorem Tracks.lt (h : Tracks priorPeers x done) {i : Nat} (hi : i ∈ done) :
    i < priorPeers.length := by
  obtain ⟨hlt, -⟩ := List.getElem?_eq_some_iff.mp ((h.succ i).mpr hi)
  exact h.length ▸ hlt

theorem Tracks.attempt (h : Tracks priorPeers x done) (fails : Nat → Bool) (i : Nat) :
    ∃ done', Tracks priorPeers (x.attempt priorPeers fails i) done' ∧ done ⊆ done' ∧
      (i < priorPeers.length → fails i = false → i ∈ done') := by
  unfold Connecting.attempt
  split
  · rename_i peer hsucc hpeer
    obtain ⟨hi, -⟩ := List.getElem?_eq_some_iff.mp hpeer
    have hnew : i ∉ done := fun hmem => by
      rw [(h.succ i).mpr hmem] at hsucc
      cases hsucc
    split
    · rename_i hfails
      refine ⟨done, ⟨h.nodup, h.created, h.length, h.succ, h.left⟩,
        List.Subset.refl done, fun _ hok => ?_⟩
      rw [hfails] at hok
      cases hok
    · refine ⟨done ++ [i], ⟨?_, ?_, ?_, ?_, ?_⟩, List.subset_append_left done [i],
        fun _ _ => List.mem_append_right done (List.mem_singleton_self i)⟩
      · exact List.nodup_append.mpr ⟨h.nodup, List.nodup_singleton i, by
          rintro a ha b hb rfl
          exact hnew (List.mem_singleton.mp hb ▸ ha)⟩
      · rw [List.filterMap_append, ← h.created]
        simp [hpeer]
      · rw [List.length_set, h.length]
      · intro j
        rw [List.mem_append, List.mem_singleton, ← h.succ j, List.getElem?_set]
        by_cases hj : i = j
        · subst hj
          simp [h.length, hi]
        · simp [hj, Ne.symm hj]
      · have hleft := h.left
        dsimp only
        rw [List.length_append, List.length_singleton]
        omega
  · rename_i hskip
    refine ⟨done, h, List.Subset.refl done, fun hi _ => ?_⟩
    obtain ⟨b, hb⟩ : ∃ b, x.connSucc[i]? = some b :=
      ⟨_, List.getElem?_eq_getElem (h.length ▸ hi)⟩
    cases b with
    | true => exact (h.succ i).mp hb
    | false => exact (hskip _ hb (List.getElem?_eq_getElem hi)).elim

theorem Tracks.attempts (h : Tracks priorPeers x done) (fails : Nat → Bool)
    (l : List Nat) :
    ∃ done', Tracks priorPeers (l.foldl (Connecting.attempt priorPeers fails) x) done' ∧
      done ⊆ done' ∧
      ∀ i ∈ l, i < priorPeers.length → fails i = false → i ∈ done' := by
  induction l generalizing x done with
  | nil => exact ⟨done, h, List.Subset.refl done, fun _ hi => nomatch hi⟩
  | cons i l ih =>
      obtain ⟨done₁, h₁, hsub₁, hi⟩ := h.attempt fails i
      obtain ⟨done₂, h₂, hsub₂, hl⟩ := ih h₁
      refine ⟨done₂, h₂, List.Subset.trans hsub₁ hsub₂, fun j hj hlt hok => ?_⟩
      rcases List.mem_cons.mp hj with rfl | hj
      · exact hsub₂ (hi hlt hok)
      · exact hl j hj hlt hok

theorem filterMap_range (l : List PeerInfo) :
    (List.range l.length).filterMap (l[·]?) = l := by
  have htake : ∀ k, (List.range k).filterMap (l[·]?) = l.take k := by
    intro k
    induction k with
    | zero => rfl
    | succ k ih =>
        rw [List.range_succ, List.filterMap_append, ih, List.take_add_one]
        cases hk : l[k]? <;> simp [hk]
  rw [htake, List.take_length]

theorem Tracks.perm_range (h : Tracks priorPeers x done)
    (hleft : ¬ 0 < x.nUnsuccConn) : done.Perm (List.range priorPeers.length) := by
  have hsub : done ⊆ List.range priorPeers.length := fun i hi =>
    List.mem_range.mpr (h.lt hi)
  refine (h.nodup.subperm hsub).perm_of_length_le ?_
  have hcount := h.left
  rw [List.length_range]
  omega

theorem Tracks.complete (h : Tracks priorPeers x done)
    (hleft : ¬ 0 < x.nUnsuccConn) : x.created.Perm priorPeers := by
  have hperm := (h.perm_range hleft).filterMap (priorPeers[·]?)
  rwa [← h.created, filterMap_range] at hperm

theorem Tracks.once (h : Tracks priorPeers x done)
    (hids : (priorPeers.map PeerInfo.peerId).Nodup) :
    (x.created.map PeerInfo.peerId).Nodup := by
  have hsub : done ⊆ List.range priorPeers.length := fun i hi =>
    List.mem_range.mpr (h.lt hi)
  obtain ⟨l, hl, hl'⟩ := h.nodup.subperm hsub
  have hperm := hl.filterMap (priorPeers[·]?)
  have hsublist := hl'.filterMap (priorPeers[·]?)
  rw [filterMap_range] at hsublist
  rw [h.created]
  exact ((hperm.map _).nodup_iff).mp ((hsublist.map _).nodup hids)

theorem tracks_within (fails : Nat → Nat → Bool) (r k : Nat) :
    ∃ done, Tracks priorPeers (within priorPeers fails r k) done := by
  induction r generalizing k with
  | zero =>
      obtain ⟨done, h, -⟩ := (tracks_start priorPeers).attempts
        (fails 0) (List.range k)
      exact ⟨done, h⟩
  | succ r ih =>
      obtain ⟨done, h⟩ := ih priorPeers.length
      obtain ⟨done', h', -⟩ := h.attempts (fails (r + 1)) (List.range k)
      exact ⟨done', h'⟩

section Rounds

variable (fails : Nat → Nat → Bool)

theorem within_eq (r k : Nat) : within priorPeers fails r k =
    (List.range k).foldl (Connecting.attempt priorPeers (fails r))
      (entering priorPeers fails r) := by
  cases r <;> rfl

/-- The states of `within` are those of the inner loop. -/
theorem round_entering (r : Nat) :
    (entering priorPeers fails r).round priorPeers (fails r) =
      entering priorPeers fails (r + 1) := by
  have hlength :
      (entering priorPeers fails r).connSucc.length = priorPeers.length := by
    cases r with
    | zero => exact (tracks_start priorPeers).length
    | succ r => exact (tracks_within fails r priorPeers.length).choose_spec.length
  rw [round, hlength, ← within_eq, entering]

theorem connect_entering (fuel r : Nat) :
    connect priorPeers fails (fuel + 1) r (entering priorPeers fails r) =
      if 0 < (entering priorPeers fails r).nUnsuccConn then
        connect priorPeers fails fuel (r + 1) (entering priorPeers fails (r + 1))
      else some (entering priorPeers fails r) := by
  rw [connect, round_entering]

variable {fails} in
/-- The loop ends where a round would begin. -/
theorem eq_entering_of_connect {fuel r : Nat} {y : Connecting}
    (h : connect priorPeers fails fuel r (entering priorPeers fails r) = some y) :
    ∃ r', y = entering priorPeers fails r' := by
  induction fuel generalizing r with
  | zero => cases h
  | succ fuel ih =>
      rw [connect_entering] at h
      split at h
      · exact ih h
      · exact ⟨r, (Option.some.inj h).symm⟩

end Rounds

theorem Tracks.last_round (h : Tracks priorPeers x done) {fails : Nat → Bool}
    (hstop : ∀ i, fails i = false) :
    ∃ done', Tracks priorPeers (x.round priorPeers fails) done' ∧
      ¬ 0 < (x.round priorPeers fails).nUnsuccConn := by
  obtain ⟨done', h', -, hall⟩ := h.attempts fails (List.range x.connSucc.length)
  refine ⟨done', h', ?_⟩
  have hsub : List.range priorPeers.length ⊆ done' := fun i hi =>
    hall i (h.length.symm ▸ hi) (List.mem_range.mp hi) (hstop i)
  have hle := (List.nodup_range.subperm hsub).length_le
  have hleft := h'.left
  rw [List.length_range] at hle
  rw [round]
  omega

theorem Tracks.terminates (h : Tracks priorPeers x done) {fails : Nat → Nat → Bool}
    {R : Nat} (hstop : ∀ r, R ≤ r → ∀ i, fails r i = false) (r : Nat) :
    ∃ fuel y, connect priorPeers fails fuel r x = some y ∧
      y.created.Perm priorPeers := by
  obtain ⟨n, hn⟩ : ∃ n, R ≤ r + n := ⟨R, Nat.le_add_left R r⟩
  induction n generalizing r x done with
  | zero =>
      by_cases hpos : 0 < x.nUnsuccConn
      · obtain ⟨done', h', hleft⟩ := h.last_round (hstop r hn)
        refine ⟨2, _, ?_, h'.complete hleft⟩
        rw [connect, if_pos hpos, connect, if_neg hleft]
      · exact ⟨1, x, by rw [connect, if_neg hpos], h.complete hpos⟩
  | succ n ih =>
      by_cases hpos : 0 < x.nUnsuccConn
      · obtain ⟨done', h', -⟩ := h.attempts (fails r) (List.range x.connSucc.length)
        obtain ⟨fuel, y, hy, hperm⟩ := ih h' (r + 1) (by omega)
        refine ⟨fuel + 1, y, ?_, hperm⟩
        rw [connect, if_pos hpos]
        exact hy
      · exact ⟨1, x, by rw [connect, if_neg hpos], h.complete hpos⟩

end Connecting

end CntPeer.Main
