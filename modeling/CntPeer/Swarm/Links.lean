import CntPeer.Process.View
import CntPeer.Swarm

/-!
# Links of a swarm

What a session has written is what its mate has read and what is still on the
way, in the same order; so every reader meets the messages it expects.
-/

namespace CntPeer

open CntPeer.Foundation

theorem Opening.shape {n : Int} {x : Session} (h : Opening n x) :
    x.sent = [] ∨ x.sent = [.handshakeMsg n] ∨ ∃ sv rest,
      x.sent = .handshakeMsg n :: .actual (.bitfieldMsg sv) :: rest ∧
        ∀ m ∈ rest, m.opens = false := by
  rcases Nat.lt_or_ge x.pc.stage 2 with hlow | hlow
  · exact .inl (h.silent (by omega))
  · rcases Nat.lt_or_ge x.pc.stage 4 with hmid | hhigh
    · exact .inr (.inl (h.greeted hlow (by omega)))
    · obtain ⟨sv, rest, -, heq, hrest⟩ := h.opened hhigh
      exact .inr (.inr ⟨sv, rest, heq, hrest⟩)

/-- The second message is a bitfield, and later ones open nothing. -/
theorem Opening.continues {n : Int} {x : Session} (h : Opening n x) {a b : Msg}
    {l : List Msg} (hsent : x.sent = a :: b :: l) :
    (∃ sv, b = .actual (.bitfieldMsg sv)) ∧ ∀ m ∈ l, m.opens = false := by
  rcases h.shape with heq | heq | ⟨sv, rest, heq, hrest⟩
  all_goals
    rw [heq] at hsent
    cases hsent
  exact ⟨⟨sv, rfl⟩, hrest⟩

theorem Opening.first {n : Int} {x : Session} (h : Opening n x) {a : Msg}
    {l : List Msg} (hsent : x.sent = a :: l) : a = .handshakeMsg n := by
  rcases h.shape with heq | heq | ⟨sv, rest, heq, -⟩
  all_goals
    rw [heq] at hsent
    cases hsent
  all_goals rfl

theorem Opening.handshake {n id : Int} {x : Session} (h : Opening n x)
    (hmem : .handshakeMsg id ∈ x.sent) : id = n := by
  rcases h.shape with heq | heq | ⟨sv, rest, heq, hrest⟩
  all_goals
    rw [heq] at hmem
  · cases hmem
  · cases List.mem_singleton.mp hmem
    rfl
  · rcases List.mem_cons.mp hmem with heq' | hmem
    · cases heq'
      rfl
    · rcases List.mem_cons.mp hmem with heq' | hmem
      · cases heq'
      · cases hrest _ hmem

namespace Net

variable {Peer : Type*} {net : Net Peer} {w w' : Swarm Peer} {q r : Peer}
  {a : Act} {s : Sid} {cfg : Peer → Config}

theorem sess_of_owner (hs : net.owner s = q) :
    net.sess w s = (w.proc q).sess s := by
  rw [sess, hs]

/-- Every process runs the program, and every link is first in, first out. -/
structure Linked (net : Net Peer) (cfg : Peer → Config) (w : Swarm Peer) :
    Prop where
  procs : ∀ q, Proc.Reachable (cfg q) (w.proc q)
  attached : ∀ q s, ((w.proc q).sess s).pc ≠ .absent → net.owner s = q
  fifo : ∀ s, (net.sess w (net.mate s)).sent =
    (net.sess w s).inbox ++ w.wire s

theorem Linked.opening (h : Linked net cfg w) (s : Sid) :
    Opening (cfg (net.owner s)).selfPeerId (net.sess w s) :=
  (Proc.introduces_reachable (h.procs _)).opening s

theorem linked_start : Linked net cfg (start cfg) where
  procs := fun _ => .start
  attached := fun _ _ hpc => absurd rfl hpc
  fifo := fun _ => rfl

theorem Linked.written (h : Linked net cfg w) {m : Msg}
    (hm : m ∈ (net.sess w s).inbox) : m ∈ (net.sess w (net.mate s)).sent := by
  rw [h.fifo]
  exact List.mem_append_left _ hm

/-- The view of a peer is never ahead of what the peer owns. -/
theorem Linked.view (h : Linked net cfg w) {i : Nat}
    (hi : (net.sess w s).peerSv[i]? = some .owned) :
    (w.proc (net.owner (net.mate s))).sh.own.sv[i]? = some .owned := by
  obtain ⟨m, hm, ht⟩ := (Proc.viewed_reachable (h.procs _) s).sound i hi
  exact Proc.told_owned (h.procs _) (h.written (List.mem_append_left _ hm)) ht

theorem Linked.peerSv_length (h : Linked net cfg w)
    (hstage : 6 ≤ (net.sess w s).pc.stage) :
    (net.sess w s).peerSv.length =
      (w.proc (net.owner (net.mate s))).sh.own.sv.length := by
  obtain ⟨sv, hmem⟩ := Proc.bitfield_handled (h.procs _) s hstage
  exact ((Proc.viewed_reachable (h.procs _) s).length sv hmem).trans
    (Proc.bitfield_length (h.procs _)
      (h.written (List.mem_append_left _ hmem)))

variable [DecidableEq Peer]

theorem proc_self (h : net.step w (q, a) = some w') :
    (w.proc q).step a = some (w'.proc q) := by
  obtain ⟨-, p, hp, rfl⟩ := step_eq_some.mp h
  simp only [hp, Function.update_self]

theorem proc_of_ne (h : net.step w (q, a) = some w') (hr : r ≠ q) :
    w'.proc r = w.proc r := by
  obtain ⟨-, p, -, rfl⟩ := step_eq_some.mp h
  exact Function.update_of_ne hr p w.proc

theorem wire_step (h : net.step w (q, a) = some w') (s : Sid) :
    w'.wire s = (w.wire s).drop (a.inputAt s).length ++
      (w.proc q).outputAt a (net.mate s) := by
  obtain ⟨-, p, -, rfl⟩ := step_eq_some.mp h
  rfl

theorem owner_of_session {u : Sid} {b : SessionAct}
    (h : net.step w (q, .session u b) = some w') : net.owner u = q := by
  obtain ⟨hadm, -⟩ := step_eq_some.mp h
  simp only [admits, Bool.and_eq_true, decide_eq_true_eq] at hadm
  exact hadm.1.1

theorem input_on_wire (h : net.step w (q, a) = some w') (s : Sid) :
    a.inputAt s <+: w.wire s := by
  obtain ⟨hadm, -⟩ := step_eq_some.mp h
  cases a with
  | session u b =>
      simp only [admits, Bool.and_eq_true, decide_eq_true_eq] at hadm
      rw [Act.inputAt]
      split
      · subst s
        exact hadm.1.2
      · exact List.nil_prefix
  | _ => exact List.nil_prefix

theorem input_wire (h : net.step w (q, a) = some w') (s : Sid) :
    a.inputAt s ++ (w.wire s).drop (a.inputAt s).length = w.wire s := by
  obtain ⟨rest, hrest⟩ := input_on_wire h s
  rw [← hrest, List.drop_left]

theorem io_of_ne (h : net.step w (q, a) = some w') (hs : net.owner s ≠ q) :
    a.inputAt s = [] ∧ (w.proc q).outputAt a s = [] := by
  cases a with
  | session u b =>
      have hsu : s ≠ u := by
        rintro rfl
        exact hs (owner_of_session h)
      simp [Act.inputAt, Proc.outputAt, hsu]
  | _ => exact ⟨rfl, rfl⟩

theorem sess_of_ne (h : net.step w (q, a) = some w') (hs : net.owner s ≠ q) :
    net.sess w' s = net.sess w s := by
  rw [sess, sess, proc_of_ne h hs]

theorem sess_sent (h : net.step w (q, a) = some w') (s : Sid) :
    (net.sess w' s).sent =
      (net.sess w s).sent ++ (w.proc q).outputAt a s := by
  by_cases hs : net.owner s = q
  · rw [sess_of_owner hs, sess_of_owner hs]
    exact Proc.sent_step (proc_self h) s
  · rw [sess_of_ne h hs, (io_of_ne h hs).2, List.append_nil]

theorem sess_inbox (h : net.step w (q, a) = some w')
    (hexp : a.expected = true) (hquiet : ∀ s, Quiet ((w.proc q).sess s))
    (s : Sid) :
    (net.sess w' s).inbox = (net.sess w s).inbox ++ a.inputAt s := by
  by_cases hs : net.owner s = q
  · rw [sess_of_owner hs, sess_of_owner hs]
    exact Proc.inbox_step hexp hquiet (proc_self h) s
  · rw [sess_of_ne h hs, (io_of_ne h hs).1, List.append_nil]

/-- The mate has written in the order in which a session reads. -/
theorem Linked.expected (h : Linked net cfg w)
    (hstep : net.step w (q, a) = some w') : a.expected = true := by
  have hproc := proc_self hstep
  have hrun := (Proc.step_cases hproc).1
  cases a with
  | session u b =>
      have howner := owner_of_session hstep
      have hin := input_wire hstep u
      have hfifo := h.fifo u
      have hopen := h.opening (net.mate u)
      have hrecv : Received (net.sess w u) := by
        rw [sess_of_owner howner]
        exact Proc.received_reachable (h.procs q) hrun u
      have hph : Phased (net.sess w u) := Proc.phased_reachable (h.procs _) u
      have hen : ((w.proc q).sessionEnabled u b) = true :=
        (Proc.session_step hproc).1
      rw [Act.inputAt, if_pos rfl] at hin
      cases b with
      | recvBitfield m =>
          simp only [Proc.sessionEnabled, decide_eq_true_eq] at hen
          rw [← sess_of_owner howner] at hen
          obtain ⟨id, hinbox⟩ := hrecv.greeted (by rw [hen]; rfl)
          rw [hinbox, ← hin] at hfifo
          obtain ⟨⟨sv, hsv⟩, -⟩ := hopen.continues hfifo
          cases hsv
          rfl
      | scan m =>
          simp only [Proc.sessionEnabled, Bool.and_eq_true] at hen
          rw [← sess_of_owner howner] at hen
          have hhigh := hph.scanning.mp hen.1
          obtain ⟨id, sv, rest, hinbox, -⟩ := hrecv.opened (by omega)
          rw [hinbox, ← hin] at hfifo
          have hm := (hopen.continues hfifo).2 (.actual m)
            (by simp [SessionAct.input])
          simp [Act.expected, SessionAct.expected, hm]
      | _ => rfl
  | _ => rfl

theorem Linked.stays_attached (h : Linked net cfg w)
    (hstep : net.step w (q, a) = some w')
    (hpc : ((w'.proc q).sess s).pc ≠ .absent) : net.owner s = q := by
  have hproc := proc_self hstep
  cases a with
  | session u b =>
      by_cases hsu : s = u
      · rw [hsu]
        exact owner_of_session hstep
      · rw [(Proc.session_step hproc).2, Proc.commit_of_ne hsu,
          Session.enqAll_pc] at hpc
        exact h.attached q s hpc
  | _ =>
      obtain ⟨es, -, heq⟩ :=
        (Proc.background_step hproc rfl).sess s
      rw [heq, Session.enqAll_pc] at hpc
      exact h.attached q s hpc

theorem Linked.step (h : Linked net cfg w)
    (hstep : net.step w (q, a) = some w') : Linked net cfg w' := by
  refine ⟨fun r => ?_, fun r s hpc => ?_, fun s => ?_⟩
  · by_cases hr : r = q
    · subst r
      exact .tail (h.procs q) trivial (proc_self hstep)
    · rw [proc_of_ne hstep hr]
      exact h.procs r
  · by_cases hr : r = q
    · subst r
      exact h.stays_attached hstep hpc
    · rw [proc_of_ne hstep hr] at hpc
      exact h.attached r s hpc
  · rw [sess_sent hstep, wire_step hstep, h.fifo,
      sess_inbox hstep (h.expected hstep) (Proc.quiet_reachable (h.procs q))]
    conv_lhs => rw [← input_wire hstep s]
    simp only [List.append_assoc]

theorem linked_reachable (h : net.Reachable cfg w) : Linked net cfg w :=
  h.invariant linked_start fun _ _ _ _ ih _ hstep => ih.step hstep

end Net

end CntPeer
