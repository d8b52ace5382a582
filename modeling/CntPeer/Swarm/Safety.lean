import CntPeer.Process.Panics
import CntPeer.Swarm.Conservation
import CntPeer.Swarm.Integrity

/-!
# No process is to blame

In a swarm of processes with a common configuration no message, no index and no
piece is ever refused.
-/

namespace CntPeer

open CntPeer.Foundation

theorem Common.nPieces {Peer : Type*} {F : List UInt8} {size : Nat}
    {cfg : Peer → Config} (hc : Common F size cfg) (q r : Peer) :
    (cfg q).nPieces = (cfg r).nPieces := by
  simp only [Config.nPieces, (hc.shares _).fileSize, hc.pieceSize]

namespace Net

variable {Peer : Type*} {net : Net Peer} {w w' : Swarm Peer} {q : Peer}
  {a : Act} {s : Sid} {cfg : Peer → Config} {F : List UInt8} {size : Nat}

theorem pending_of_handle {x : Session} {e : Event} {m : Msg}
    (hpc : x.pc = .handle e) (hm : e.msg? = some m) : m ∈ x.pending :=
  List.mem_filterMap.mpr ⟨e, by simp [Session.events, hpc], hm⟩

theorem Linked.length (h : Linked net cfg w) (hc : Common F size cfg)
    (q r : Peer) :
    (w.proc q).sh.own.sv.length = (w.proc r).sh.own.sv.length := by
  rw [(Proc.owning_reachable (h.procs q)).length,
    (Proc.owning_reachable (h.procs r)).length, hc.nPieces q r]

theorem have_in_range (hlink : Linked net cfg w) {j : Int}
    (hpc : (net.sess w s).pc = .handle (.msgHave j)) :
    checkRange (net.sess w s).peerSv j = true := by
  have hsent := hlink.written
    (List.mem_append_right _ (pending_of_handle hpc rfl))
  obtain ⟨i, rfl, hi⟩ :=
    (Proc.truthful_reachable (hlink.procs _) _).written j hsent
  refine checkRange_iff.mpr ⟨i, rfl, ?_⟩
  rw [hlink.peerSv_length (by simp [hpc, Pc.stage])]
  exact (List.getElem?_eq_some_iff.mp hi).1

theorem request_owned (hlink : Linked net cfg w) {j : Int}
    (hpc : (net.sess w s).pc = .handle (.msgRequest j)) :
    ∃ i : Nat, j = i ∧
      (w.proc (net.owner s)).sh.own.sv[i]? = some .owned := by
  have hsent := hlink.written
    (List.mem_append_right _ (pending_of_handle hpc rfl))
  obtain ⟨i, rfl, hi⟩ :=
    (Proc.asked_reachable (hlink.procs _) _).written j hsent
  have hview := hlink.view hi
  rw [net.mate_mate] at hview
  exact ⟨i, rfl, hview⟩

theorem piece_requested (hlink : Linked net cfg w) (hcon : net.Conserved w)
    {j : Int} {d : Piece}
    (hpc : (net.sess w s).pc = .handle (.msgPiece j d)) :
    ∃ i : Nat, j = i ∧
      (w.proc (net.owner s)).sh.own.sv[i]? = some .requested := by
  have hpend := pending_of_handle hpc rfl
  obtain ⟨i, rfl, -⟩ := (Proc.served_reachable (hlink.procs _) _).written j d
    (hlink.written (List.mem_append_right _ hpend))
  exact ⟨i, rfl, (hcon _ i).status (tokens_of_asking (asking_of_mem hpend))⟩

theorem accepting_requested (hcon : net.Conserved w) {i : Nat}
    (hpc : (net.sess w s).pc.accepting = some i) :
    (w.proc (net.owner s)).sh.own.sv[i]? = some .requested :=
  (hcon _ i).status (tokens_of_asking
    (asking_of_holds (by simp [Pc.holds, hpc])))

/-- None of the causes of a violation holds at a running process. -/
theorem no_cause (hc : Common F size cfg) (hlink : Linked net cfg w)
    (hcon : net.Conserved w)
    (hint : Intact F (cfg (net.owner s)) (w.proc (net.owner s))) {r : Panic}
    (h : PanicCause (w.proc (net.owner s)).sh (net.sess w s) r) :
    r.violation = false := by
  cases r with
  | pieceNotOwned =>
      obtain ⟨j, hpc, hnot⟩ := h
      obtain ⟨i, rfl, hi⟩ := request_owned hlink hpc
      simp [SyncPieceBitfield.isOwned, hi] at hnot
  | pieceNotRequested =>
      obtain ⟨j, d, hpc, hnot⟩ := h
      obtain ⟨i, rfl, hi⟩ := piece_requested hlink hcon hpc
      simp [SyncPieceBitfield.isRequested, hi] at hnot
  | unexpectedPieceSize =>
      obtain ⟨i, d, hpc, hne⟩ := h
      have hl := hint.locals s
      change ((w.proc (net.owner s)).sess s).pc = _ at hpc
      simp only [PieceLocal, hpc] at hl
      obtain ⟨i', hii, -, rfl⟩ := hl
      cases Int.natCast_inj.mp hii
      rw [length_chunk, hint.keeps.expectedSize] at hne
      exact absurd rfl hne
  | fileNotWritable =>
      obtain ⟨i, d, hpc, hro⟩ := h
      have hreq := accepting_requested hcon (i := i) (by rw [hpc]; rfl)
      have hproc := hlink.procs (net.owner s)
      rw [hint.keeps.writable, Bool.not_eq_false'] at hro
      have hi := (List.getElem?_eq_some_iff.mp hreq).1
      rw [(Proc.owning_reachable hproc).length] at hi
      rw [Proc.seed_owns hproc hro i hi] at hreq
      cases hreq
  | indexOutOfBound =>
      have hl := (Proc.owning_reachable (hlink.procs (net.owner s))).locals s
      exfalso
      rcases h with ⟨j, hpc, hout⟩ | ⟨j, hpc, hout⟩ | ⟨j, d, hpc, hout⟩ |
        ⟨i, hpc, hout⟩
      · rw [have_in_range hlink hpc] at hout
        cases hout
      · obtain ⟨i, rfl, hi⟩ := request_owned hlink hpc
        rw [checkRange_iff.mpr
          ⟨i, rfl, (List.getElem?_eq_some_iff.mp hi).1⟩] at hout
        cases hout
      · obtain ⟨i, rfl, hi⟩ := piece_requested hlink hcon hpc
        rw [checkRange_iff.mpr
          ⟨i, rfl, (List.getElem?_eq_some_iff.mp hi).1⟩] at hout
        cases hout
      · have hi : i < (w.proc (net.owner s)).sh.own.sv.length := by
          rcases hpc with hpc | hpc
          all_goals
            change ((w.proc (net.owner s)).sess s).pc = _ at hpc
            simp only [OwnLocal, hpc] at hl
          · exact (List.getElem?_eq_some_iff.mp hl.2).1
          · rcases hl with hl | hl
            all_goals exact (List.getElem?_eq_some_iff.mp hl).1
        omega
  | operandsSize =>
      obtain ⟨hstage, hne⟩ := h
      refine absurd ?_ hne
      rw [hlink.peerSv_length hstage]
      exact hlink.length hc _ _
  | md5Mismatch | unexpectedBitfield | unknownMessageType => exact h.elim
  | _ => rfl

variable [DecidableEq Peer]

theorem panic_step (hlink : Linked net cfg w)
    (hstep : net.step w (q, a) = some w') {r : Panic}
    (hpanic : (w'.proc q).sh.halt = some (.panic r)) :
    r = .cleanUpUnknown ∨ r = .unexpectedPeer ∨
      ∃ s, net.owner s = q ∧ PanicCause (w.proc q).sh (net.sess w s) r := by
  have hproc := proc_self hstep
  have hrun := (Proc.step_cases hproc).1
  have hexp := hlink.expected hstep
  cases a with
  | session u b =>
      have howner := owner_of_session hstep
      obtain ⟨-, heq⟩ := Proc.session_step hproc
      rw [heq, Proc.commit_sh] at hpanic
      cases b with
      | thread c =>
          refine .inr (.inr ⟨u, howner, ?_⟩)
          rw [sess_of_owner howner]
          exact Proc.panic_protocol hrun hpanic
      | recvHandshake id =>
          simp only [Proc.sessionEffect] at hpanic
          split at hpanic
          · cases hpanic
            exact .inr (.inl rfl)
          · exact absurd hpanic (not_halted hrun)
      | recvBitfield m =>
          cases m with
          | bitfieldMsg sv => exact absurd hpanic (not_halted hrun)
          | _ => cases hexp
      | scan m =>
          obtain ⟨e, he⟩ := scanned_of_expected hexp
          simp only [Proc.sessionEffect, he] at hpanic
          exact absurd hpanic (not_halted hrun)
      | readFails hlt =>
          obtain ⟨hadm, -⟩ := step_eq_some.mp hstep
          simp only [admits, Bool.and_eq_true, SessionAct.reliable,
            decide_eq_true_eq] at hadm
          rw [hadm.2] at hpanic
          cases hpanic
      | create _ _ | received _ => exact absurd hpanic (not_halted hrun)
  | _ => exact .inl (Proc.background_panic hproc rfl hpanic).1

/-- No process of the swarm ever stops with a panic that blames the peer. -/
theorem no_violation (hc : Common F size cfg) (h : net.Reachable cfg w) :
    ∀ q r, (w.proc q).sh.halt = some (.panic r) → r.violation = false := by
  refine h.invariant (I := fun w => ∀ q r,
    (w.proc q).sh.halt = some (.panic r) → r.violation = false) nofun ?_
  rintro w ⟨q, a⟩ w' hr ih - hstep p r hpanic
  by_cases hpq : p = q
  · subst p
    rcases panic_step (linked_reachable hr) hstep hpanic with
      rfl | rfl | ⟨s, rfl, hcause⟩
    · rfl
    · rfl
    · exact no_cause hc (linked_reachable hr) (conserved_reachable hr)
        (intact_reachable hc hr _) hcause
  · rw [proc_of_ne hstep hpq] at hpanic
    exact ih p r hpanic

end Net

end CntPeer
