import CntPeer.Process.AtRest
import CntPeer.Swarm.Conservation

/-!
# Requests and their answers

A request that a session has written is on its way, or its answer is, or the
answer has been taken up.
-/

namespace CntPeer

open CntPeer.Foundation

namespace Net

variable {Peer : Type*} [DecidableEq Peer] {net : Net Peer} {w w' : Swarm Peer}
  {q : Peer} {a : Act} {s : Sid} {cfg : Peer → Config} {i : Nat}

theorem handled_step (hstep : net.step w (q, a) = some w') {m : Msg}
    (hm : m ∈ (net.sess w s).handled) : m ∈ (net.sess w' s).handled := by
  by_cases hs : net.owner s = q
  · rw [sess_of_owner hs] at hm ⊢
    exact Proc.handled_step (proc_self hstep) hm
  · rwa [sess_of_ne hstep hs]

/-- The piece that a session asked for has been taken up, or the request for it
has a token. -/
def Answered (net : Net Peer) (w : Swarm Peer) : Prop :=
  ∀ s (i : Nat), .actual (.requestMsg i) ∈ (net.sess w s).sent →
    0 < net.tokens w s i ∨ ∃ d, .actual (.pieceMsg i d) ∈ (net.sess w s).handled

theorem settled_answer (hlink : Linked net cfg w)
    (hstep : net.step w (q, a) = some w')
    (hsettle : (w.proc q).settlesAt a s i ≠ 0) :
    ∃ d, .actual (.pieceMsg i d) ∈ (net.sess w s).handled := by
  have hs : net.owner s = q := by
    by_contra hs
    exact hsettle (books_of_ne hstep hs i).2
  cases a with
  | session t act =>
      simp only [Proc.settlesAt, ne_eq, ite_eq_right_iff, Classical.not_imp] at hsettle
      obtain ⟨-, hsettle⟩ := hsettle
      cases act with
      | thread c =>
          have hpc : ((w.proc q).sess s).pc = .markOwned i := by
            simpa [SessionAct.settles, Pc.settles] using hsettle
          rw [sess_of_owner hs]
          apply Proc.accepts_reachable (hlink.procs q) s
          rw [hpc]
          rfl
      | _ => exact absurd rfl hsettle
  | _ => exact absurd rfl hsettle

theorem written_request (hstep : net.step w (q, a) = some w')
    (hout : .actual (.requestMsg i) ∈ (w.proc q).outputAt a s) :
    0 < net.tokens w s i ∧ (w.proc q).settlesAt a s i = 0 := by
  have hs : net.owner s = q := by
    by_contra hs
    rw [(io_of_ne hstep hs).2] at hout
    cases hout
  obtain ⟨k, hk, hpc⟩ := Proc.request_stands (proc_self hstep) hout
  obtain rfl := Int.natCast_inj.mp hk
  rw [← sess_of_owner hs] at hpc
  constructor
  · apply tokens_of_asking
    apply asking_of_holds
    simp [hpc, Pc.holds]
  · rw [sess_of_owner hs] at hpc
    cases a with
    | session t act =>
        simp only [Proc.settlesAt]
        split
        · cases act with
          | thread c => simp [SessionAct.settles, Pc.settles, hpc]
          | _ => rfl
        · rfl
    | _ => rfl

theorem Answered.step (hlink : Linked net cfg w) (hcon : net.Conserved w)
    (h : net.Answered w) (hstep : net.step w (q, a) = some w') :
    net.Answered w' := by
  intro s i hsent
  have htokens := tokens_step hlink hcon hstep s i
  rw [sess_sent hstep] at hsent
  rcases List.mem_append.mp hsent with hold | hnew
  · by_cases hsettle : (w.proc q).settlesAt a s i = 0
    · rcases h s i hold with hpos | ⟨d, hd⟩
      · exact .inl (by omega)
      · exact .inr ⟨d, handled_step hstep hd⟩
    · obtain ⟨d, hd⟩ := settled_answer hlink hstep hsettle
      exact .inr ⟨d, handled_step hstep hd⟩
  · obtain ⟨hpos, hsettle⟩ := written_request hstep hnew
    exact .inl (by omega)

theorem answered_reachable (h : net.Reachable cfg w) : net.Answered w := by
  refine h.invariant (I := net.Answered) (fun s i hsent => ?_) ?_
  · cases hsent
  · rintro w ⟨q, a⟩ w' hr ih - hstep
    exact ih.step (linked_reachable hr) (conserved_reachable hr) hstep

end Net

end CntPeer
