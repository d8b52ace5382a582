import CntPeer.Foundation.History
import CntPeer.Process.Parting
import CntPeer.Swarm.Safety

/-!
# How two sessions part

When drains start settled, the two ends of a connection agree on its end: a
`TearDown` meets a session that is done, and nothing that matters is discarded.
-/

namespace CntPeer

open CntPeer.Foundation

def Session.dequeues (x : Session) (e : Event) : Prop :=
  x.eq.head? = some e ∧
    (x.pc = .loop ∨ x.pc = .drain ∨ x.pc = .awaitTearDown)

instance (x : Session) (e : Event) : Decidable (x.dequeues e) :=
  inferInstanceAs (Decidable (_ ∧ _))

namespace Net

variable {Peer : Type*} {net : Net Peer} {w w' : Swarm Peer} {q : Peer}
  {a : Act} {s : Sid} {cfg : Peer → Config}

def DrainsStartSettled (w : Swarm Peer) (l : Peer × Act) : Prop :=
  Proc.DrainStartsSettled (w.proc l.1) l.2

instance (w : Swarm Peer) (l : Peer × Act) :
    Decidable (DrainsStartSettled w l) :=
  inferInstanceAs (Decidable (Proc.DrainStartsSettled _ _))

theorem handled_all (hlink : Linked net cfg w) {n : Nat}
    (hpart : Parted n (net.sess w (net.mate s)))
    (hpart' : Parted n (net.sess w s)) (hstage : (net.sess w s).pc.stage ≤ 8)
    {rest : List Msg}
    (hpend : (net.sess w s).pending = .actual .tearDownMsg :: rest) :
    ∀ i, i < n → ∃ m ∈ (net.sess w s).handled, tells i m = true := by
  have hfifo := hlink.fifo s
  have hwritten : .actual .tearDownMsg ∈ (net.sess w (net.mate s)).sent := by
    rw [hfifo, Session.inbox, hpend]
    simp
  obtain ⟨-, l, hsent, hl, hhandled | htold⟩ := hpart hwritten
  · -- the mate would have read the `TearDown` of a session still at work
    have hmine := hlink.written (List.mem_append_left _ hhandled)
    rw [net.mate_mate] at hmine
    have := (hpart' hmine).1
    omega
  · rw [hsent, Session.inbox, hpend, List.append_assoc, List.cons_append]
      at hfifo
    rwa [← eq_of_first hl hfifo]

theorem peer_owns_all (hlink : Linked net cfg w)
    (hlow : 6 ≤ (net.sess w s).pc.stage) (hhigh : (net.sess w s).pc.stage ≤ 8)
    (hall : ∀ i, i < (cfg (net.owner (net.mate s))).nPieces →
      ∃ m ∈ (net.sess w s).handled, tells i m = true) :
    (net.sess w s).peerAll = true := by
  have hproc := hlink.procs (net.owner s)
  have hlen := hlink.peerSv_length hlow
  rw [(Proc.owning_reachable (hlink.procs _)).length] at hlen
  refine peerAll_of_peerSv ((Proc.phased_reachable hproc s).peerOwn.mpr hlow)
    fun i hi => ?_
  obtain ⟨m, hm, ht⟩ := hall i (hlen ▸ hi)
  exact (Proc.viewed_reachable hproc s).complete hhigh i m hm ht

theorem announced_all (hlink : Linked net cfg w)
    (hstage : 9 ≤ (net.sess w (net.mate s)).pc.stage) {i : Nat}
    (hi : i < (cfg (net.owner s)).nPieces) :
    Announced (net.sess w s) i := by
  have hproc := hlink.procs (net.owner (net.mate s))
  have hdone := (Proc.phased_reachable hproc (net.mate s)).teardown hstage
  have hall : (net.sess w (net.mate s)).peerAll = true :=
    (Proc.doneAgrees_reachable hproc (net.mate s) hdone).2
  have hlen := hlink.peerSv_length (s := net.mate s) (by omega)
  rw [net.mate_mate, (Proc.owning_reachable (hlink.procs _)).length] at hlen
  obtain ⟨m, hm, ht⟩ := (Proc.viewed_reachable hproc (net.mate s)).sound i
    (peerSv_of_peerAll hall (hlen ▸ hi))
  have hsent := hlink.written (List.mem_append_left _ hm)
  rw [net.mate_mate] at hsent
  exact Proc.announced_of_told (hlink.procs _) ⟨m, hsent, ht⟩

/-- A session that is about to handle or take up `TearDown` has noticed that
both sides own everything. -/
theorem done_at_tearDown (hn : ∀ q r, (cfg q).nPieces = (cfg r).nPieces)
    (hlink : Linked net cfg w)
    (hpart : ∀ s, Parted (cfg (net.owner s)).nPieces (net.sess w s))
    (hstage : (net.sess w s).pc.stage = 8) {rest : List Msg}
    (hpend : (net.sess w s).pending = .actual .tearDownMsg :: rest) :
    (net.sess w s).isDone = true ∨ (net.sess w s).pc = .bcastInterest ∨
      (net.sess w s).pc = .bcastDone := by
  have hmate := hpart (net.mate s)
  have hhandled := handled_all hlink hmate
    (hn _ (net.owner s) ▸ hpart s) (by omega) hpend
  have hwritten : .actual .tearDownMsg ∈ (net.sess w (net.mate s)).sent :=
    hlink.written (List.mem_append_right _ (by rw [hpend]; simp))
  have hmateStage := (hmate hwritten).1
  exact Proc.alert_reachable (hlink.procs (net.owner s)) s (by
      change 6 ≤ (net.sess w s).pc.stage
      omega)
    (fun i hi => announced_all hlink (by omega) hi)
    (peer_owns_all hlink (by omega) (by omega) hhandled)

variable [DecidableEq Peer]

/-- Along a run whose drains start settled, every process is at rest once one of
its sessions tears down, so its drains are settled. -/
theorem rested_reaches (h : Reaches net.step DrainsStartSettled (start cfg) w) :
    ∀ q, Proc.Rested (w.proc q) ∧
      Reaches Proc.step Proc.DrainsSettled (Proc.init (cfg q)) (w.proc q) := by
  refine h.invariant (I := fun w => ∀ q, Proc.Rested (w.proc q) ∧
    Reaches Proc.step Proc.DrainsSettled (Proc.init (cfg q)) (w.proc q))
    (fun q => ⟨?_, .start⟩) ?_
  · intro s hstage
    exact absurd hstage (by simp [start, Proc.init, Session.fresh, Pc.stage])
  · rintro w ⟨q, a⟩ w' hr ih hok hstep r
    by_cases hrq : r = q
    · subst r
      obtain ⟨hrest, hrun⟩ := ih q
      have hproc := proc_self hstep
      have hcon := conserved_reachable hr.reachable
      refine ⟨hrest.step hrun.reachable (fun v i hpc => ?_) hok hproc,
        .tail hrun (hrest.drainsSettled a) hproc⟩
      have howner := (linked_reachable hr.reachable).attached q v
        (by rw [hpc]; simp)
      subst q
      exact accepting_requested hcon (s := v) (by
        change Pc.accepting (((w.proc (net.owner v)).sess v).pc) = some i
        rw [hpc]
        rfl)
    · rw [proc_of_ne hstep hrq]
      exact ih r

theorem parted_reaches (h : Reaches net.step DrainsStartSettled (start cfg) w)
    (s : Sid) : Parted (cfg (net.owner s)).nPieces (net.sess w s) :=
  Proc.parted_reaches (rested_reaches h _).2 s

/-- `TearDown` is never taken up by a session that is not done. -/
theorem done_at_head (hn : ∀ q r, (cfg q).nPieces = (cfg r).nPieces)
    (h : Reaches net.step DrainsStartSettled (start cfg) w)
    (hdeq : (net.sess w s).dequeues .msgTearDown) :
    (net.sess w s).isDone = true := by
  have hlink := linked_reachable h.reachable
  obtain ⟨hhead, hpc⟩ := hdeq
  rcases hpc with hpc | hpc
  · obtain ⟨rest, heq⟩ := List.head?_eq_some_iff.mp hhead
    have hpend : (net.sess w s).pending = .actual .tearDownMsg ::
        rest.filterMap Event.msg? := by
      simp [Session.pending, Session.events, hpc, heq, Event.msg?]
    rcases done_at_tearDown hn hlink (parted_reaches h) (by rw [hpc]; rfl)
      hpend with hdone | hpc' | hpc'
    · exact hdone
    · rw [hpc] at hpc'
      cases hpc'
    · rw [hpc] at hpc'
      cases hpc'
  · have hstage : 9 ≤ (net.sess w s).pc.stage := by
      rcases hpc with hpc | hpc
      all_goals
        rw [hpc]
        decide
    exact (Proc.phased_reachable (hlink.procs _) s).teardown hstage

theorem no_tearDown_in_hand (hn : ∀ q r, (cfg q).nPieces = (cfg r).nPieces)
    (h : Reaches net.step DrainsStartSettled (start cfg) w) :
    ∀ s, (net.sess w s).pc ≠ .handle .msgTearDown := by
  refine h.invariant
    (I := fun w => ∀ s, (net.sess w s).pc ≠ .handle .msgTearDown)
    (fun _ => nofun) ?_
  rintro w ⟨q, a⟩ w' hr ih - hstep s hpc
  by_cases hs : net.owner s = q
  · rw [sess_of_owner hs] at hpc
    rcases Proc.handle_step (proc_self hstep) hpc with hold | ⟨hloop, hnot, hhead⟩
    · exact ih s (by rwa [sess_of_owner hs])
    · rw [← sess_of_owner hs] at hloop hnot hhead
      rw [done_at_head hn hr ⟨hhead, .inl hloop⟩] at hnot
      cases hnot
  · rw [sess_of_ne hstep hs] at hpc
    exact ih s hpc

theorem no_premature_tearDown (hn : ∀ q r, (cfg q).nPieces = (cfg r).nPieces)
    (h : Reaches net.step DrainsStartSettled (start cfg) w) :
    ∀ q, (w.proc q).sh.halt ≠ some (.panic .prematureTearDown) := by
  refine h.invariant (I := fun w => ∀ q,
    (w.proc q).sh.halt ≠ some (.panic .prematureTearDown)) (fun _ => nofun) ?_
  rintro w ⟨q, a⟩ w' hr ih - hstep p hpanic
  by_cases hpq : p = q
  · subst p
    rcases panic_step (linked_reachable hr.reachable) hstep hpanic with
      hc | hc | ⟨s, -, hcause⟩
    · cases hc
    · cases hc
    · exact no_tearDown_in_hand hn hr s hcause
  · rw [proc_of_ne hstep hpq] at hpanic
    exact ih p hpanic

/--
When drains start settled, a session that takes up `TearDown` is done, nobody
stops with `premature teardown received`, and no request or answer is thrown
away by a teardown loop.
-/
theorem tearDown_agreed (hn : ∀ q r, (cfg q).nPieces = (cfg r).nPieces)
    (h : Reaches net.step DrainsStartSettled (start cfg) w) :
    (∀ s, (net.sess w s).dequeues .msgTearDown →
      (net.sess w s).isDone = true) ∧
    (∀ q, (w.proc q).sh.halt ≠ some (.panic .prematureTearDown)) ∧
    ∀ s e, discarding (net.sess w s) = some e →
      (∀ j, e ≠ .msgRequest j) ∧ ∀ j d, e ≠ .msgPiece j d := by
  have hlink := linked_reachable h.reachable
  have hcon := conserved_reachable h.reachable
  exact ⟨fun _ => done_at_head hn h, no_premature_tearDown hn h,
    fun _ _ hd => ⟨no_request_discarded hlink hcon hd,
      no_answer_discarded hlink hcon hd⟩⟩

end Net

/-- The leech completes its file and tears down, and its `TearDown` has reached
the seed. -/
def pairParting : List (Bool × Act) :=
  pairRequest ++ onSess 0 (.scan .chokeMsg) :: onThread 0 2 ++
    onSess 0 (.scan (.requestMsg 0)) :: onThread 0 6 ++
    onSess 1 (.scan (.pieceMsg 0 [7])) :: onThread 1 20 ++
    onSess 0 (.scan (.haveMsg 0)) :: onSess 0 (.scan .notInterestedMsg) ::
    onSess 0 (.scan .tearDownMsg) :: onThread 0 4

def parting : Swarm Bool :=
  (run (checkedStep pairNet.step Net.DrainsStartSettled) (Net.start pairCfg)
    pairParting).get (by decide +kernel)

theorem parting_reaches : Reaches pairNet.step Net.DrainsStartSettled
    (Net.start pairCfg) parting :=
  reaches_get _

theorem tearDown_agreed_parting :
    (pairNet.sess parting 0).dequeues .msgTearDown ∧
      (pairNet.sess parting 0).isDone = true :=
  ⟨by decide +kernel,
    (Net.tearDown_agreed (by decide) parting_reaches).1 0
      (by decide +kernel)⟩

end CntPeer
