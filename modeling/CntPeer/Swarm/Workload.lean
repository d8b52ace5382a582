import CntPeer.Process.Workload
import CntPeer.Swarm.Conservation

/-!
# A swarm comes to rest

The messages on a link are work for the process that reads them.  With them
counted, what one process writes is what another one has to do, and the work of
the whole swarm only grows when a timer ticks or a session is created.
-/

namespace CntPeer

open CntPeer.Foundation

namespace Swarm

variable {Peer : Type*}

def incoming (k : Nat) (w : Swarm Peer) (q : Peer) : Nat :=
  if (w.proc q).sh.halt.isSome then 0
  else (w.proc q).sh.sc.sids.sum fun t => burden k (w.wire t)

def load [Fintype Peer] (k : Nat) (w : Swarm Peer) : Nat :=
  Finset.univ.sum fun q => (w.proc q).load k + w.incoming k q

end Swarm

namespace Net

variable {Peer : Type*} {net : Net Peer} {w w' : Swarm Peer} {q r : Peer}
  {a : Act} {s t : Sid} {cfg : Peer → Config} {k : Nat}

theorem owner_of_mem_sids (h : Linked net cfg w)
    (ht : t ∈ (w.proc q).sh.sc.sids) : net.owner t = q := by
  obtain ⟨e, he, rfl⟩ := List.mem_map.mp (List.mem_toFinset.mp ht)
  exact h.attached q e.s ((Proc.lifecycle_reachable (h.procs q)).stored e he).2

def delivered (net : Net Peer) (k : Nat) (w : Swarm Peer) (q : Peer) (a : Act) (r : Peer) :
    Nat :=
  (w.proc r).sh.sc.sids.sum fun t =>
    burden k ((w.proc q).outputAt a (net.mate t))

/-- A message is delivered to one session at most. -/
theorem sum_delivered_le [Fintype Peer] [DecidableEq Peer] (h : Linked net cfg w) :
    (Finset.univ.sum fun r => net.delivered k w q a r) ≤
      burden k ((w.proc q).outputs a) := by
  cases a with
  | session u b =>
      have hone : ∀ r, net.delivered k w q (.session u b) r ≤
          if r = net.owner (net.mate u) then
            burden k ((w.proc q).outputs (.session u b)) else 0 := by
        intro r
        have hterm : ∀ t, burden k ((w.proc q).outputAt (.session u b) (net.mate t)) =
            if net.mate u = t then burden k ((w.proc q).outputs (.session u b)) else 0 := by
          intro t
          by_cases htu : net.mate u = t
          · rw [if_pos htu, ← htu, net.mate_mate, Proc.outputAt, if_pos rfl]
            rfl
          · have hne : net.mate t ≠ u := by
              rintro rfl
              exact htu (net.mate_mate t)
            rw [if_neg htu, Proc.outputAt, if_neg hne, burden_nil]
        unfold delivered
        simp only [hterm]
        rw [Finset.sum_ite_eq]
        split
        · rename_i hmem
          rw [if_pos (owner_of_mem_sids h hmem).symm]
        · exact Nat.zero_le _
      refine (Finset.sum_le_sum fun r _ => hone r).trans ?_
      rw [Finset.sum_ite_eq']
      split
      · exact Nat.le_refl _
      · exact Nat.zero_le _
  | _ => simp [delivered, Proc.outputAt]

/-- A tick of a timer is the only step that brings new work into a swarm. -/
def tickCost (n : Nat) (l : Peer × Act) : Nat :=
  if l.2.ticks then 12 * (n + 1) else 0

theorem sum_tickCost (n : Nat) (as : List (Peer × Act)) :
    (as.map (tickCost n)).sum =
      12 * (n + 1) * as.countP fun l => l.2.ticks := by
  unfold tickCost
  generalize 12 * (n + 1) = tick
  induction as with
  | nil => rfl
  | cons l as ih =>
      simp only [List.map_cons, List.sum_cons, List.countP_cons, ih,
        Nat.mul_add]
      split
      all_goals omega

theorem sum_works (as : List (Peer × Act)) :
    (as.map fun l => if l.2.works then 1 else 0).sum =
      as.countP fun l => l.2.works := by
  induction as with
  | nil => rfl
  | cons l as ih =>
      simp only [List.map_cons, List.sum_cons, List.countP_cons, ih]
      omega

theorem works_free {n : Nat} {l : Peer × Act} (hl : l.2.works = true) :
    l.2.creates = false ∧ tickCost n l = 0 ∧ 0 < (if l.2.works then 1 else 0) := by
  obtain ⟨q, a⟩ := l
  cases a with
  | session s b =>
      cases b with
      | create _ _ | received _ | readFails _ => cases hl
      | _ => exact ⟨rfl, rfl, by simp [Act.works]⟩
  | cleanUp => exact ⟨rfl, rfl, by simp [Act.works]⟩
  | pnTick _ | optTick _ | exit => cases hl

theorem exists_bound [Fintype Peer] (f : Peer → Nat) : ∃ n, ∀ q, f q ≤ n :=
  ⟨Finset.univ.sup f, fun q => Finset.le_sup (Finset.mem_univ q)⟩

variable [DecidableEq Peer]

theorem burden_wire (hstep : net.step w (q, a) = some w') (t : Sid) :
    burden k (w'.wire t) + burden k (a.inputAt t) =
      burden k (w.wire t) + burden k ((w.proc q).outputAt a (net.mate t)) := by
  have hin := congrArg (burden k) (input_wire hstep t)
  rw [burden_append] at hin
  rw [wire_step hstep, burden_append]
  omega

theorem incoming_of_ne (hstep : net.step w (q, a) = some w')
    (hr : r ≠ q) :
    w'.incoming k r ≤ w.incoming k r + net.delivered k w q a r := by
  unfold Swarm.incoming delivered
  rw [proc_of_ne hstep hr]
  split
  · exact Nat.zero_le _
  · rw [← Finset.sum_add_distrib]
    refine Finset.sum_le_sum fun t _ => ?_
    have hwire := burden_wire (k := k) hstep t
    omega

theorem inputs_le (h : Linked net cfg w) (hstep : net.step w (q, a) = some w') :
    burden k a.inputs ≤
      (w.proc q).sh.sc.sids.sum fun t => burden k (a.inputAt t) := by
  cases a with
  | session u b =>
      obtain ⟨hen, -⟩ := Proc.session_step (proc_self hstep)
      by_cases hin : b.input = []
      · simp [Act.inputs, hin]
      · have hworks : (Act.session u b).works = true := by
          cases b with
          | recvHandshake _ | recvBitfield _ | scan _ => rfl
          | _ => exact absurd rfl hin
        have hmem := Proc.mem_sids_of_enabled
          (Proc.lifecycle_reachable (h.procs q)) hen hworks
        have hself : (Act.session u b).inputAt u = b.input := if_pos rfl
        calc burden k b.input = burden k ((Act.session u b).inputAt u) := by
              rw [hself]
          _ ≤ _ := Finset.single_le_sum
              (f := fun t => burden k ((Act.session u b).inputAt t))
              (fun _ _ => Nat.zero_le _) hmem
  | _ => exact Nat.zero_le _

theorem incoming_self (h : Linked net cfg w) (hstep : net.step w (q, a) = some w')
    (hcreate : a.creates = false) :
    w'.incoming k q + burden k a.inputs ≤
      w.incoming k q + net.delivered k w q a q := by
  have hproc := proc_self hstep
  have hrun := (Proc.step_cases hproc).1
  have hsub := Proc.sids_subset (Proc.ss_step hcreate hproc)
  have hin := inputs_le (k := k) h hstep
  have hsum : ((w.proc q).sh.sc.sids.sum fun t => burden k (w'.wire t)) +
        ((w.proc q).sh.sc.sids.sum fun t => burden k (a.inputAt t)) =
      ((w.proc q).sh.sc.sids.sum fun t => burden k (w.wire t)) +
        net.delivered k w q a q := by
    rw [delivered, ← Finset.sum_add_distrib, ← Finset.sum_add_distrib]
    exact Finset.sum_congr rfl fun t _ => burden_wire hstep t
  have hle : w'.incoming k q ≤
      (w.proc q).sh.sc.sids.sum fun t => burden k (w'.wire t) := by
    unfold Swarm.incoming
    split
    · exact Nat.zero_le _
    · exact Finset.sum_le_sum_of_subset hsub
  have hbefore : w.incoming k q =
      (w.proc q).sh.sc.sids.sum fun t => burden k (w.wire t) := by
    rw [Swarm.incoming, hrun]
    rfl
  omega

theorem load_step [Fintype Peer] {n : Nat} (h : Linked net cfg w)
    (hk : ∀ q, (w.proc q).sh.sc.ss.length ≤ k) (hn : ∀ q, (cfg q).numPn ≤ n)
    (hcreate : a.creates = false) (hstep : net.step w (q, a) = some w') :
    w'.load k + (if a.works then 1 else 0) ≤ w.load k + tickCost n (q, a) := by
  have hproc := proc_self hstep
  have hstepq := Proc.load_step (h.procs q) (hk q) hcreate hproc
  have hself := incoming_self (k := k) h hstep hcreate
  have hdelivered := sum_delivered_le (k := k) (q := q) (a := a) h
  have htick : Proc.cost k (cfg q).numPn a ≤
      burden k a.inputs + tickCost n (q, a) := by
    have hle := hn q
    unfold Proc.cost tickCost
    split <;> omega
  have hpeer : ∀ r ∈ Finset.univ,
      (w'.proc r).load k + w'.incoming k r +
          (if r = q then
            burden k ((w.proc q).outputs a) + (if a.works then 1 else 0) else 0) ≤
        (w.proc r).load k + w.incoming k r + net.delivered k w q a r +
          (if r = q then tickCost n (q, a) else 0) := by
    intro r _
    by_cases hr : r = q
    · subst r
      simp only [if_true]
      omega
    · have hother := incoming_of_ne (k := k) hstep hr
      rw [if_neg hr, if_neg hr, proc_of_ne hstep hr]
      omega
  have hsum := Finset.sum_le_sum hpeer
  simp only [Finset.sum_add_distrib, Finset.sum_ite_eq', Finset.mem_univ,
    if_true] at hsum hdelivered
  simp only [Swarm.load, Finset.sum_add_distrib]
  omega

def AtMost (k : Nat) (w : Swarm Peer) : Prop :=
  ∀ q, (w.proc q).sh.sc.ss.length ≤ k

theorem AtMost.step (h : AtMost k w) (hcreate : a.creates = false)
    (hstep : net.step w (q, a) = some w') : AtMost k w' := by
  intro r
  by_cases hr : r = q
  · subst r
    exact (Proc.ss_step hcreate (proc_self hstep)).length_le.trans (h q)
  · rw [proc_of_ne hstep hr]
    exact h r

theorem works_ranked [Fintype Peer] {n : Nat} (hn : ∀ q, (cfg q).numPn ≤ n) :
    Ranked net.step (fun l => l.2.creates = false)
      (fun w => net.Reachable cfg w ∧ AtMost k w)
      (fun l => if l.2.works then 1 else 0) (tickCost n) (Swarm.load k) where
  keeps := fun hw hnew hstep =>
    ⟨.tail hw.1 trivial hstep, hw.2.step hnew hstep⟩
  pays := fun hw hnew hstep =>
    load_step (linked_reachable hw.1) hw.2 hn hnew hstep

/--
The threads of a swarm and its messages keep each other busy for a bounded
number of steps only; each further tick of a timer adds a constant.
-/
theorem swarm_work_bounded [Fintype Peer] {n : Nat} (h : net.Reachable cfg w)
    (hk : AtMost k w) (hn : ∀ q, (cfg q).numPn ≤ n) {as : List (Peer × Act)}
    (hnew : ∀ l ∈ as, l.2.creates = false) (hrun : run net.step w as = some w') :
    (as.countP fun l => l.2.works) ≤
      w.load k + 12 * (n + 1) * as.countP fun l => l.2.ticks := by
  have hpays := (works_ranked hn).run_pays ⟨h, hk⟩ hnew hrun
  rw [sum_works, sum_tickCost] at hpays
  omega

end Net

def answerRun : List (Bool × Act) :=
  onSess 0 (.scan .chokeMsg) :: onThread 0 2 ++
    onSess 0 (.scan (.requestMsg 0)) :: onThread 0 6 ++
    onSess 1 (.scan (.pieceMsg 0 [7])) :: onThread 1 2

theorem answerRun_runs : (run pairNet.step requesting answerRun).isSome = true := by
  decide +kernel

theorem swarm_work_bounded_requesting :
    (answerRun.countP fun l => l.2.works) = 13 ∧
      (answerRun.countP fun l => l.2.works) ≤
        requesting.load 1 +
          12 * (1 + 1) * answerRun.countP fun l => l.2.ticks :=
  ⟨by decide, Net.swarm_work_bounded requesting_reachable
    (by unfold Net.AtMost; decide +kernel) (by decide) (by decide)
    (Option.some_get answerRun_runs).symm⟩

namespace Net

variable {Peer : Type*} [DecidableEq Peer] {net : Net Peer} {w : Swarm Peer}
  {cfg : Peer → Config}

/-- There is a budget for the steps that only continue what has been started. -/
theorem works_checked [Fintype Peer] (net : Net Peer)
    (ok : Swarm Peer → Peer × Act → Prop) [∀ w l, Decidable (ok w l)]
    (w : Swarm Peer) (cfg : Peer → Config) :
    ∃ n k, AtMost k w ∧
      Ranked (checkedStep net.step ok) (fun l => l.2.creates = false)
        (fun w => net.Reachable cfg w ∧ AtMost k w)
        (fun l => if l.2.works then 1 else 0) (tickCost n) (Swarm.load k) := by
  obtain ⟨n, hn⟩ := exists_bound fun q => (cfg q).numPn
  obtain ⟨k, hk⟩ := exists_bound fun q => (w.proc q).sh.sc.ss.length
  exact ⟨n, k, hk, (works_ranked hn).checked⟩

theorem works_bounded [Fintype Peer] {ok : Swarm Peer → Peer × Act → Prop}
    [∀ w l, Decidable (ok w l)] (h : net.Reachable cfg w) :
    ∃ n, ∀ as w', (∀ l ∈ as, l.2.works = true) →
      run (checkedStep net.step ok) w as = some w' → as.length ≤ n := by
  obtain ⟨n, k, hk, hranked⟩ := works_checked net ok w cfg
  exact ⟨w.load k, fun as w' has hrun =>
    hranked.free_bounded (fun _ hl => works_free hl) ⟨h, hk⟩ has hrun⟩

end Net

end CntPeer
