import Mathlib.Data.Fintype.EquivFin
import CntPeer.Process.Room
import CntPeer.Swarm.Settling

/-!
# The end of a run

In a full mesh, where every process has one session for each of the others, the
counter of unfinished sessions tells more than that the process may end: every
process of the swarm has the whole file.
-/

namespace CntPeer

open CntPeer.Foundation

namespace Proc

variable {p : Proc} {cfg : Config}

theorem unfinished_of_gcDone (h : Reachable cfg p) (hdone : p.sh.sc.gcDone = true) :
    p.sh.sc.nUnfinishedSession = 0 := by
  obtain ⟨l, hl⟩ : ∃ l, Records step lifeEvents anyStep (init cfg) (p, l) :=
    h.records
  have hall := ((finished_records hl).all hdone).2
  rw [(chronicled_records hl).unfinished, hall, sub_self]

end Proc

namespace Net

variable {Peer : Type*} {net : Net Peer} {w w' : Swarm Peer} {q r : Peer}
  {a : Act} {s : Sid} {cfg : Peer → Config} {F : List UInt8} {size : Nat}

/-- Every process counts all peers, and has at most one session for each of the
others. -/
structure Meshed [Fintype Peer] (net : Net Peer) (cfg : Peer → Config)
    (w : Swarm Peer) : Prop where
  count : ∀ q, (cfg q).totalPeerCount = Fintype.card Peer
  apart : ∀ s, (net.sess w s).pc ≠ .absent → net.owner (net.mate s) ≠ net.owner s
  once : ∀ s t, (net.sess w s).pc ≠ .absent → (net.sess w t).pc ≠ .absent →
    net.owner s = net.owner t →
    net.owner (net.mate s) = net.owner (net.mate t) → s = t

theorem card_others [Fintype Peer] [DecidableEq Peer] (q : Peer) :
    (Finset.univ.erase q).card = Fintype.card Peer - 1 := by
  rw [Finset.card_erase_of_mem (Finset.mem_univ q), Finset.card_univ]

theorem Meshed.others [Fintype Peer] [DecidableEq Peer] (h : net.Meshed cfg w)
    (hlink : Linked net cfg w) {T : Finset Sid}
    (hT : ∀ t, t ∈ T ↔ ((w.proc q).sess t).pc ≠ .absent) :
    (T.image fun t => net.owner (net.mate t)) ⊆ Finset.univ.erase q ∧
      (T.image fun t => net.owner (net.mate t)).card = T.card := by
  have howner : ∀ t ∈ T, net.owner t = q ∧ (net.sess w t).pc ≠ .absent := by
    intro t ht
    have hpc := (hT t).mp ht
    have ho := hlink.attached q t hpc
    rw [sess_of_owner ho]
    exact ⟨ho, hpc⟩
  constructor
  · intro r hr
    obtain ⟨t, ht, rfl⟩ := Finset.mem_image.mp hr
    obtain ⟨ho, hpc⟩ := howner t ht
    exact Finset.mem_erase.mpr ⟨ho ▸ h.apart t hpc, Finset.mem_univ _⟩
  · apply Finset.card_image_of_injOn
    intro s hs t ht heq
    obtain ⟨hs, hspc⟩ := howner s hs
    obtain ⟨ht, htpc⟩ := howner t ht
    exact h.once s t hspc htpc (hs.trans ht.symm) heq

/-- When no session of a process is unfinished, it has had one for each of the
others, and all have ended. -/
theorem Meshed.all_ended [Fintype Peer] [DecidableEq Peer]
    (h : net.Meshed cfg w) (hlink : Linked net cfg w)
    (hzero : (w.proc q).sh.sc.nUnfinishedSession = 0) :
    (∀ s, ((w.proc q).sess s).pc ≠ .absent → ((w.proc q).sess s).pc = .ended) ∧
      ∀ r, r ≠ q → ∃ s, (net.sess w s).pc = .ended ∧ net.owner s = q ∧
        net.owner (net.mate s) = r := by
  obtain ⟨T, hT, hcard⟩ := Proc.created_sessions (hlink.procs q)
  obtain ⟨hsub, himage⟩ := h.others hlink hT
  have hle := Finset.card_le_card hsub
  have hpos : 0 < Fintype.card Peer := Fintype.card_pos_iff.mpr ⟨q⟩
  rw [himage, card_others] at hle
  rw [hzero, h.count q] at hcard
  have hnone : (w.proc q).sh.sc.ss = [] := by
    apply List.eq_nil_of_length_eq_zero
    omega
  have hended : ∀ s, ((w.proc q).sess s).pc ≠ .absent →
      ((w.proc q).sess s).pc = .ended := by
    intro s hpc
    by_contra hend
    have hlive := (Proc.lifecycle_reachable (hlink.procs q)).live s hpc hend
    rw [hnone] at hlive
    cases hlive
  refine ⟨hended, fun r hr => ?_⟩
  have hall := Finset.eq_of_subset_of_card_le hsub
    (by rw [himage, card_others]; omega)
  have hmem : r ∈ T.image fun t => net.owner (net.mate t) := by
    rw [hall]
    exact Finset.mem_erase.mpr ⟨hr, Finset.mem_univ r⟩
  obtain ⟨s, hs, hsr⟩ := Finset.mem_image.mp hmem
  have hpc := (hT s).mp hs
  have ho := hlink.attached q s hpc
  refine ⟨s, ?_, ho, hsr⟩
  rw [sess_of_owner ho]
  exact hended s hpc

def OwnsAll (w : Swarm Peer) (q : Peer) : Prop :=
  ∀ i, i < (w.proc q).sh.own.sv.length → (w.proc q).sh.own.sv[i]? = some .owned

theorem done_of_ended (hlink : Linked net cfg w) (hpc : (net.sess w s).pc = .ended) :
    (w.proc (net.owner s)).sh.own.owningAll = true ∧
      (net.sess w s).peerAll = true := by
  have hr := hlink.procs (net.owner s)
  exact Proc.doneAgrees_reachable hr s ((Proc.phased_reachable hr s).teardown
    (le_of_le_of_eq (by decide) (congrArg Pc.stage hpc).symm))

theorem mate_ownsAll (hlink : Linked net cfg w) (hpc : (net.sess w s).pc = .ended) :
    OwnsAll w (net.owner (net.mate s)) := by
  intro i hi
  apply hlink.view
  apply peerSv_of_peerAll (done_of_ended hlink hpc).2
  rwa [hlink.peerSv_length (le_of_le_of_eq (by decide) (congrArg Pc.stage hpc).symm)]

theorem Meshed.all_own [Fintype Peer] [DecidableEq Peer] (h : net.Meshed cfg w)
    (hlink : Linked net cfg w) (hpeers : 1 < Fintype.card Peer)
    (hzero : (w.proc q).sh.sc.nUnfinishedSession = 0) (r : Peer) :
    OwnsAll w r := by
  obtain ⟨hended, hmates⟩ := h.all_ended hlink hzero
  by_cases hr : r = q
  · subst hr
    obtain ⟨r', hr'⟩ := Fintype.exists_ne_of_one_lt_card hpeers r
    obtain ⟨s, hpc, ho, -⟩ := hmates r' hr'
    have hall := (done_of_ended hlink hpc).1
    rw [ho] at hall
    refine Proc.all_owned (hlink.procs r) hall fun u => ?_
    by_cases hu : ((w.proc r).sess u).pc = .absent
    · rw [hu]
      rfl
    · rw [hended u hu]
      rfl
  · obtain ⟨s, hpc, -, rfl⟩ := hmates r hr
    exact mate_ownsAll hlink hpc

theorem file_of_ownsAll [DecidableEq Peer] (hc : Common F size cfg)
    (h : net.Reachable cfg w) (hall : OwnsAll w q) :
    (w.proc q).sh.repo.file = F := by
  have hshare := hc.shares q
  have hkeeps := (intact_reachable hc h q).keeps
  have hown := Proc.owning_reachable ((linked_reachable h).procs q)
  refine eq_of_chunks hshare.pieceSize hkeeps.short fun i hi => ?_
  apply hkeeps.owned
  apply hall
  rw [hown.length, Config.nPieces, hshare.fileSize]
  exact lt_ceilingDiv hshare.pieceSize hi

/--
In a full mesh of honest processes, when the last session of one process is
unregistered, so that `wait` may return there, every process has the whole file.
-/
theorem finish_complete [Fintype Peer] [DecidableEq Peer] (hc : Common F size cfg)
    (h : net.Reachable cfg w) (hmesh : net.Meshed cfg w)
    (hpeers : 1 < Fintype.card Peer)
    (hzero : (w.proc q).sh.sc.nUnfinishedSession = 0) (r : Peer) :
    OwnsAll w r ∧ (w.proc r).sh.repo.file = F := by
  have hall := hmesh.all_own (linked_reachable h) hpeers hzero r
  exact ⟨hall, file_of_ownsAll hc h hall⟩

/-- A mesh in which every process has a session for each of the others, and every
connection has both its ends. -/
structure FullMesh [Fintype Peer] (net : Net Peer) (cfg : Peer → Config)
    (w : Swarm Peer) : Prop extends Meshed net cfg w where
  met : ∀ s, (net.sess w s).pc ≠ .absent → (net.sess w (net.mate s)).pc ≠ .absent
  all : ∀ q r, r ≠ q → ∃ s, net.owner s = q ∧ (net.sess w s).pc ≠ .absent ∧
    net.owner (net.mate s) = r

theorem FullMesh.card_sessions [Fintype Peer] [DecidableEq Peer]
    (h : net.FullMesh cfg w) (hlink : Linked net cfg w) {T : Finset Sid}
    (hT : ∀ t, t ∈ T ↔ ((w.proc q).sess t).pc ≠ .absent) :
    T.card = Fintype.card Peer - 1 := by
  obtain ⟨hsub, himage⟩ := h.others hlink hT
  rw [← card_others q, ← himage]
  congr 1
  refine Finset.Subset.antisymm hsub fun r hr => ?_
  obtain ⟨s, ho, hpc, hsr⟩ := h.all q r (Finset.mem_erase.mp hr).1
  rw [sess_of_owner ho] at hpc
  exact Finset.mem_image.mpr ⟨s, (hT s).mpr hpc, hsr⟩

theorem Resting.unregistered [DecidableEq Peer] (h : net.Resting w)
    (hlink : Linked net cfg w) (hrun : Running w)
    (hended : ∀ s, ((w.proc q).sess s).pc ≠ .absent →
      ((w.proc q).sess s).pc = .ended) :
    (w.proc q).sh.sc.ss = [] ∨ (w.proc q).sh.sc.gcDone = true := by
  have hr := hlink.procs q
  have hdis := h.disabled (a := .cleanUp) (q := q) rfl rfl
  have hm := ((h.still hlink hrun q).mutexes hr).2.2
  simp only [Proc.enabled, hrun q, hm, Option.isNone_none, Bool.true_and,
    Bool.and_eq_false_iff, Bool.not_eq_false'] at hdis
  refine hdis.imp_left fun hempty => ?_
  apply List.eq_nil_iff_forall_not_mem.mpr
  intro e he
  have hpc := ((Proc.lifecycle_reachable hr).stored e he).2
  have hmem := Proc.queued_reachable hr e he (hended e.s hpc)
  rw [List.isEmpty_iff.mp hempty] at hmem
  cases hmem

theorem FullMesh.none_unfinished [Fintype Peer] [DecidableEq Peer]
    (hmesh : net.FullMesh cfg w) (hlink : Linked net cfg w) (hrun : Running w)
    (hrest : net.Resting w) (hall : ∀ r, OwnsAll w r) (q : Peer) :
    (w.proc q).sh.sc.nUnfinishedSession = 0 := by
  have hended : ∀ s, ((w.proc q).sess s).pc ≠ .absent →
      ((w.proc q).sess s).pc = .ended := by
    intro s hpc
    have ho := hlink.attached q s hpc
    rw [← sess_of_owner ho] at hpc ⊢
    cases hrest.ends hlink hrun s with
    | unmet here there one =>
        exact absurd (one.resolve_left hpc) (hmesh.met s hpc)
    | talking here there lacks => exact absurd ⟨hall _, hall _⟩ lacks
    | parted here there all => exact here
  rcases hrest.unregistered hlink hrun hended with hnone | hdone
  · obtain ⟨T, hT, hcard⟩ := Proc.created_sessions (hlink.procs q)
    have hpos : 0 < Fintype.card Peer := Fintype.card_pos_iff.mpr ⟨q⟩
    rw [hnone, hmesh.count q, hmesh.card_sessions hlink hT] at hcard
    simp only [List.length_nil] at hcard
    omega
  · exact Proc.unfinished_of_gcDone (hlink.procs q) hdone

/--
A full mesh of honest processes that has come to rest is finished exactly when
its sessions are: the counter of unfinished sessions is zero at any one process
if and only if every process of the swarm owns every piece.
-/
theorem unfinished_iff_complete [Fintype Peer] [DecidableEq Peer]
    (h : net.Reachable cfg w) (hrun : Running w) (hrest : net.Resting w)
    (hmesh : net.FullMesh cfg w) (hpeers : 1 < Fintype.card Peer) (q : Peer) :
    (w.proc q).sh.sc.nUnfinishedSession = 0 ↔ ∀ r, OwnsAll w r := by
  have hlink := linked_reachable h
  exact ⟨hmesh.all_own hlink hpeers,
    fun hall => hmesh.none_unfinished hlink hrun hrest hall q⟩

end Net

theorem pair_meshed {w : Swarm Bool}
    (houtside : ∀ s, s ∉ [0, 1] → (pairNet.sess w s).pc = .absent)
    (hcreated : ∀ s ∈ [0, 1], (pairNet.sess w s).pc ≠ .absent) :
    pairNet.FullMesh pairMesh w := by
  have hends : ∀ s, (pairNet.sess w s).pc ≠ .absent → s = 0 ∨ s = 1 := by
    intro s hs
    by_contra hout
    rw [not_or] at hout
    exact hs (houtside s (by simp [hout.1, hout.2]))
  refine ⟨⟨fun q => by cases q <;> rfl, fun s hs => ?_, fun s t hs ht howner _ => ?_⟩,
    fun s hs => ?_, fun q r hqr => ?_⟩
  · rcases hends s hs with rfl | rfl
    all_goals decide
  · rcases hends s hs with rfl | rfl
    all_goals
      rcases hends t ht with rfl | rfl
      all_goals first
        | rfl
        | exact absurd howner (by decide)
  · rcases hends s hs with rfl | rfl
    · exact hcreated 1 (by decide)
    · exact hcreated 0 (by decide)
  · cases q
    all_goals cases r
    · exact absurd rfl hqr
    · exact ⟨0, by decide, hcreated 0 (by decide), by decide⟩
    · exact ⟨1, by decide, hcreated 1 (by decide), by decide⟩
    · exact absurd rfl hqr

theorem finished_meshed : pairNet.FullMesh pairMesh finished :=
  pair_meshed
    (fun _ hs => (Net.absent_outside finished_run finishedRun_sessions hs).1)
    (by decide +kernel)

theorem finish_complete_finished : (finished.proc true).sh.repo.file = [7] := by
  have hzero : (finished.proc false).sh.sc.nUnfinishedSession = 0 := by decide +kernel
  exact (Net.finish_complete pairMesh_common finished_reaches.reachable
    finished_meshed.toMeshed (by decide) hzero true).2

theorem unfinished_iff_complete_finished :
    (finished.proc true).sh.sc.nUnfinishedSession = 0 ∧ ∀ r, Net.OwnsAll finished r := by
  have hzero : (finished.proc true).sh.sc.nUnfinishedSession = 0 := by decide +kernel
  refine ⟨hzero, ?_⟩
  exact (Net.unfinished_iff_complete finished_reaches.reachable finished_running
    finished_rests finished_meshed (by decide) true).mp hzero

end CntPeer
