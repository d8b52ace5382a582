import CntPeer.Process.Tokens
import CntPeer.Swarm.Links

/-!
# Conservation of requests

Every requested piece has one token in the whole swarm: its request on the way
out, its answer on the way back, or a thread that holds the one or the other.
-/

namespace CntPeer

open CntPeer.Foundation

namespace Net

variable {Peer : Type*} (net : Net Peer)

/-- The tokens of session `s` for piece `i`, on either side of its
connection. -/
def tokens (w : Swarm Peer) (s : Sid) (i : Nat) : Nat :=
  asking (net.sess w s) i + requests i (w.wire (net.mate s)) +
    serving (net.sess w (net.mate s)) i + pieces i (w.wire s)

/-- A requested piece has one token, any other piece has none. -/
inductive Balanced (w : Swarm Peer) (q : Peer) (i : Nat) : Prop
  | requested (s : Sid)
      (status : (w.proc q).sh.own.sv[i]? = some .requested)
      (owner : net.owner s = q) (one : net.tokens w s i = 1)
      (others : ∀ t, net.owner t = q → t ≠ s → net.tokens w t i = 0)
  | settled (status : (w.proc q).sh.own.sv[i]? ≠ some .requested)
      (none : ∀ s, net.owner s = q → net.tokens w s i = 0)

def Conserved (w : Swarm Peer) : Prop := ∀ q i, net.Balanced w q i

variable {net} {w w' : Swarm Peer} {q r : Peer} {a : Act} {s t : Sid}
  {cfg : Peer → Config} {i : Nat}

theorem Balanced.status (h : net.Balanced w (net.owner s) i)
    (htok : 0 < net.tokens w s i) :
    (w.proc (net.owner s)).sh.own.sv[i]? = some .requested := by
  cases h with
  | requested u status => exact status
  | settled status none =>
      rw [none s rfl] at htok
      contradiction

theorem Balanced.unique (h : net.Balanced w q i) (hs : net.owner s = q)
    (ht : net.owner t = q) (htok : 0 < net.tokens w s i)
    (htok' : 0 < net.tokens w t i) : s = t := by
  cases h with
  | requested u status owner one others =>
      have hsu : s = u := by
        by_contra hne
        rw [others s hs hne] at htok
        contradiction
      have htu : t = u := by
        by_contra hne
        rw [others t ht hne] at htok'
        contradiction
      rw [hsu, htu]
  | settled status none =>
      rw [none s hs] at htok
      contradiction

theorem tokens_of_asking (h : 0 < asking (net.sess w s) i) :
    0 < net.tokens w s i := by
  unfold tokens
  omega

theorem tokens_of_serving (h : 0 < serving (net.sess w s) i) :
    0 < net.tokens w (net.mate s) i := by
  unfold tokens
  rw [net.mate_mate]
  omega

theorem asking_of_holds {x : Session} (h : x.pc.holds i = 1) :
    0 < asking x i := by
  unfold asking
  omega

theorem asking_of_mem {x : Session} {d : Piece}
    (h : .actual (.pieceMsg i d) ∈ x.pending) : 0 < asking x i := by
  have : 0 < pieces i x.pending :=
    List.countP_pos_iff.mpr ⟨_, h, by simp [isPiece]⟩
  unfold asking
  omega

theorem serving_of_mem {x : Session}
    (h : .actual (.requestMsg i) ∈ x.pending) : 0 < serving x i := by
  have : 0 < requests i x.pending :=
    List.countP_pos_iff.mpr ⟨_, h, by simp [isRequest]⟩
  unfold serving
  omega

theorem pending_of_discarding {x : Session} {e : Event} {m : Msg}
    (h : discarding x = some e) (hm : e.msg? = some m) : m ∈ x.pending := by
  unfold discarding at h
  unfold Session.pending Session.events
  split at h
  all_goals first
    | contradiction
    | rename_i hpc
      rw [hpc]
      exact List.mem_filterMap.mpr ⟨e, List.mem_of_mem_head? h, hm⟩

theorem stage_of_discarding {x : Session} {e : Event}
    (h : discarding x = some e) : 9 ≤ x.pc.stage := by
  unfold discarding at h
  split at h
  all_goals first
    | contradiction
    | rename_i hpc
      rw [hpc]
      decide

/-- A session that is done has no answer outstanding: whatever its process
lacks is about to be stored by another session. -/
theorem no_answer_discarded (hlink : Linked net cfg w) (h : net.Conserved w)
    {e : Event} (hd : discarding (net.sess w s) = some e) (j : Int)
    (d : Piece) : e ≠ .msgPiece j d := by
  rintro rfl
  have hproc := hlink.procs (net.owner s)
  have hown := Proc.owning_reachable hproc
  have hstage := stage_of_discarding hd
  have hpend := pending_of_discarding hd rfl
  obtain ⟨i, rfl, -⟩ := (Proc.served_reachable (hlink.procs _) _).written j d
    (hlink.written (List.mem_append_right _ hpend))
  have htok := tokens_of_asking (asking_of_mem hpend)
  have hreq := (h _ i).status htok
  have hdone := (Proc.phased_reachable hproc s).teardown hstage
  have hall := (Proc.doneAgrees_reachable hproc s hdone).1
  have hset := hown.counted.owningAll_iff.mp hall i
    (List.getElem?_eq_some_iff.mp hreq).1
  unfold SyncPieceBitfield.settled at hset
  split at hset
  · rw [hreq] at hset
    cases hset
  · rename_i u k hmutex
    have hpc := hown.mutex u k hmutex
    by_cases hki : k = i
    · subst k
      have howner := hlink.attached _ u (by rw [hpc]; simp)
      have hpc' : (net.sess w u).pc = .markOwned i := by
        rw [sess_of_owner howner, hpc]
      have hholds : (net.sess w u).pc.holds i = 1 := by
        simp [hpc', Pc.holds, Pc.accepting]
      have hu : 0 < net.tokens w u i :=
        tokens_of_asking (asking_of_holds hholds)
      have hsu := (h _ i).unique howner rfl hu htok
      rw [hsu] at hpc'
      rw [hpc'] at hstage
      exact absurd hstage (by simp [Pc.stage])
    · rw [List.getElem?_set_ne hki, hreq] at hset
      cases hset

/-- The mate of a session that is done owns everything, so it has no request
outstanding. -/
theorem no_request_discarded (hlink : Linked net cfg w) (h : net.Conserved w)
    {e : Event} (hd : discarding (net.sess w s) = some e) (j : Int) :
    e ≠ .msgRequest j := by
  rintro rfl
  have hproc := hlink.procs (net.owner s)
  have hstage := stage_of_discarding hd
  have hpend := pending_of_discarding hd rfl
  obtain ⟨i, rfl, -⟩ := (Proc.asked_reachable (hlink.procs _) _).written j
    (hlink.written (List.mem_append_right _ hpend))
  have htok := tokens_of_serving (serving_of_mem hpend)
  have hreq := (h _ i).status htok
  have hdone := (Proc.phased_reachable hproc s).teardown hstage
  have hall : (net.sess w s).peerAll = true :=
    (Proc.doneAgrees_reachable hproc s hdone).2
  have hlen := hlink.peerSv_length (s := s) (by omega)
  have howned := hlink.view (peerSv_of_peerAll hall (i := i)
    (by rw [hlen]; exact (List.getElem?_eq_some_iff.mp hreq).1))
  rw [hreq] at howned
  cases howned

theorem conserved_start : net.Conserved (start cfg) := by
  intro q i
  refine .settled ?_ fun s _ => rfl
  simp only [start, Proc.init, SyncPieceBitfield.init, List.getElem?_replicate]
  split
  · cases (cfg q).hasFile <;> simp
  · simp

variable [DecidableEq Peer]

theorem Conserved.keeps_tokens (h : net.Conserved w) (hlink : Linked net cfg w)
    (hstep : net.step w (q, a) = some w') :
    Proc.KeepsTokens (w.proc q) a := by
  rintro s c rfl e hd
  have howner := owner_of_session hstep
  rw [← sess_of_owner howner] at hd
  exact ⟨fun j => no_request_discarded hlink h hd j,
    fun j d => no_answer_discarded hlink h hd j d⟩

theorem requests_wire (hstep : net.step w (q, a) = some w') (s : Sid) (i : Nat) :
    requests i (w'.wire s) + requests i (a.inputAt s) =
      requests i (w.wire s) +
        requests i ((w.proc q).outputAt a (net.mate s)) := by
  rw [wire_step hstep, requests_append]
  conv_rhs => rw [← input_wire hstep s, requests_append]
  omega

theorem pieces_wire (hstep : net.step w (q, a) = some w') (s : Sid) (i : Nat) :
    pieces i (w'.wire s) + pieces i (a.inputAt s) =
      pieces i (w.wire s) +
        pieces i ((w.proc q).outputAt a (net.mate s)) := by
  rw [wire_step hstep, pieces_append]
  conv_rhs => rw [← input_wire hstep s, pieces_append]
  omega

theorem books_of_ne (hstep : net.step w (q, a) = some w')
    (hs : net.owner s ≠ q) (i : Nat) :
    (w.proc q).makesAt a s i = 0 ∧ (w.proc q).settlesAt a s i = 0 := by
  cases a with
  | session u b =>
      have hsu : s ≠ u := by
        rintro rfl
        exact hs (owner_of_session hstep)
      simp [Proc.makesAt, Proc.settlesAt, hsu]
  | _ => exact ⟨rfl, rfl⟩

theorem asking_sess (hlink : Linked net cfg w) (h : net.Conserved w)
    (hstep : net.step w (q, a) = some w') (s : Sid) (i : Nat) :
    asking (net.sess w' s) i + requests i ((w.proc q).outputAt a s) +
        (w.proc q).settlesAt a s i =
      asking (net.sess w s) i + (w.proc q).makesAt a s i +
        pieces i (a.inputAt s) := by
  by_cases hs : net.owner s = q
  · rw [sess_of_owner hs, sess_of_owner hs]
    exact Proc.asking_step (hlink.expected hstep)
      (Proc.owning_reachable (hlink.procs q)).locals
      (h.keeps_tokens hlink hstep) (proc_self hstep) s
  · rw [sess_of_ne hstep hs, (io_of_ne hstep hs).1, (io_of_ne hstep hs).2,
      (books_of_ne hstep hs i).1, (books_of_ne hstep hs i).2]
    rfl

theorem serving_sess (hlink : Linked net cfg w) (h : net.Conserved w)
    (hstep : net.step w (q, a) = some w') (s : Sid) (i : Nat) :
    serving (net.sess w' s) i + pieces i ((w.proc q).outputAt a s) =
      serving (net.sess w s) i + requests i (a.inputAt s) := by
  by_cases hs : net.owner s = q
  · rw [sess_of_owner hs, sess_of_owner hs]
    exact Proc.serving_step (hlink.expected hstep)
      (h.keeps_tokens hlink hstep) (proc_self hstep) s
  · rw [sess_of_ne hstep hs, (io_of_ne hstep hs).1, (io_of_ne hstep hs).2]
    rfl

/-- Tokens are passed on; only `setRequested` makes one and only the end of
`setOwned` settles one. -/
theorem tokens_step (hlink : Linked net cfg w) (h : net.Conserved w)
    (hstep : net.step w (q, a) = some w') (s : Sid) (i : Nat) :
    net.tokens w' s i + (w.proc q).settlesAt a s i =
      net.tokens w s i + (w.proc q).makesAt a s i := by
  have hask := asking_sess hlink h hstep s i
  have hserve := serving_sess hlink h hstep (net.mate s) i
  have hreq := requests_wire hstep (net.mate s) i
  have hpiece := pieces_wire hstep s i
  rw [net.mate_mate] at hreq
  unfold tokens
  omega

theorem Balanced.step_self (hlink : Linked net cfg w) (h : net.Conserved w)
    (hstep : net.step w (q, a) = some w') (i : Nat) :
    net.Balanced w' q i := by
  have htok : ∀ s, _ := fun s => tokens_step hlink h hstep s i
  have hown := Proc.owning_reachable (hlink.procs q)
  have hbal := h q i
  have hacts : ∀ u, (∃ act, a = .session u act) → net.owner u = q := by
    rintro u ⟨act, rfl⟩
    exact owner_of_session hstep
  cases Proc.statusStep (i := i) hown.locals (proc_self hstep) with
  | made u absent requested makes settles acts =>
      simp only [makes, settles, Nat.add_zero] at htok
      cases hbal with
      | requested s status =>
          rw [absent] at status
          cases status
      | settled status none =>
          refine .requested u requested (hacts u acts) ?_ fun t ht hne => ?_
          · rw [htok, none u (hacts u acts), if_pos rfl]
          · rw [htok, none t ht, if_neg hne]
  | settled u stands owned makes settles acts =>
      simp only [makes, settles, Nat.add_zero] at htok
      have hu : 0 < net.tokens w u i := by
        refine tokens_of_asking (asking_of_holds ?_)
        rw [sess_of_owner (hacts u acts), stands]
        simp [Pc.holds, Pc.accepting]
      refine .settled (by simp [owned]) fun t ht => ?_
      cases hbal with
      | requested s status owner one others =>
          have hsu : s = u := by
            by_contra hne
            rw [others u (hacts u acts) (Ne.symm hne)] at hu
            contradiction
          subst s
          have := htok t
          by_cases htu : t = u
          · subst t
            rw [if_pos rfl] at this
            omega
          · rw [others t ht htu, if_neg htu] at this
            omega
      | settled status none =>
          rw [none u (hacts u acts)] at hu
          contradiction
  | same status makes settles =>
      simp only [makes, settles, Nat.add_zero] at htok
      cases hbal with
      | requested s old owner one others =>
          exact .requested s (status.trans old) owner ((htok s).trans one)
            fun t ht hne => (htok t).trans (others t ht hne)
      | settled old none =>
          exact .settled (by rwa [status]) fun t ht =>
            (htok t).trans (none t ht)

theorem Conserved.step (hlink : Linked net cfg w) (h : net.Conserved w)
    (hstep : net.step w (q, a) = some w') : net.Conserved w' := by
  intro r i
  by_cases hr : r = q
  · subst r
    exact .step_self hlink h hstep i
  · have htok : ∀ s, net.owner s = r → net.tokens w' s i = net.tokens w s i := by
      intro s hs
      have hne : net.owner s ≠ q := hs ▸ hr
      have := tokens_step hlink h hstep s i
      rw [(books_of_ne hstep hne i).1, (books_of_ne hstep hne i).2] at this
      exact this
    have hproc := proc_of_ne hstep hr
    cases h r i with
    | requested s status owner one others =>
        exact .requested s (by rwa [hproc]) owner ((htok s owner).trans one)
          fun t ht hne => (htok t ht).trans (others t ht hne)
    | settled status none =>
        exact .settled (by rwa [hproc]) fun t ht => (htok t ht).trans (none t ht)

theorem conserved_reachable (h : net.Reachable cfg w) : net.Conserved w :=
  h.invariant conserved_start fun _ _ _ hr ih _ hstep =>
    ih.step (linked_reachable hr) hstep

/--
No request is lost or doubled: in every state of every swarm, a piece that is
requested at a process has exactly one token among the sessions of the process,
and a piece that is absent or owned has none.
-/
theorem requests_conserved (h : net.Reachable cfg w) (q : Peer) (i : Nat) :
    ((w.proc q).sh.own.sv[i]? = some .requested →
      ∃ s, net.owner s = q ∧ net.tokens w s i = 1 ∧
        ∀ t, net.owner t = q → t ≠ s → net.tokens w t i = 0) ∧
    ((w.proc q).sh.own.sv[i]? = some .absent ∨
        (w.proc q).sh.own.sv[i]? = some .owned →
      ∀ s, net.owner s = q → net.tokens w s i = 0) := by
  cases conserved_reachable h q i with
  | requested s status owner one others =>
      refine ⟨fun _ => ⟨s, owner, one, others⟩, ?_⟩
      rw [status]
      rintro (h | h) <;> cases h
  | settled status none =>
      exact ⟨fun hreq => absurd hreq status, fun _ => none⟩

end Net

def across (s : Nat) : Nat := if s % 2 = 0 then s + 1 else s - 1

theorem across_across (s : Nat) : across (across s) = s := by
  unfold across
  split
  · rw [if_neg (by omega)]
    omega
  · rw [if_pos (by omega)]
    omega

/-- Two processes; the even sessions of the one are connected to the odd
sessions of the other. -/
def pairNet : Net Bool where
  owner s := s % 2 == 1
  mate := across
  mate_mate := across_across

def pairCfg : Bool → Config
  | false => Proc.seed
  | true => Proc.leech

def onSess (s : Sid) (a : SessionAct) : Bool × Act :=
  (pairNet.owner s, .session s a)

def onThread (s : Sid) (n : Nat) : List (Bool × Act) :=
  List.replicate n (onSess s (.thread {}))

def pairSetup : List (Bool × Act) :=
  onSess 0 (.create 0 epidNoPreference) :: onThread 0 3 ++
    onSess 1 (.create 0 epidNoPreference) :: onThread 1 3 ++
    [onSess 0 (.recvHandshake 1), onSess 0 (.recvBitfield (.bitfieldMsg [.absent])),
      onSess 1 (.recvHandshake 1), onSess 1 (.recvBitfield (.bitfieldMsg [.owned]))] ++
    onThread 0 2 ++ onThread 1 2

def pairRequest : List (Bool × Act) :=
  pairSetup ++ onSess 0 (.scan .interestedMsg) :: onThread 0 5 ++
    [onSess 1 (.scan .notInterestedMsg)] ++ onThread 1 2 ++
    onSess 1 (.scan .unchokeMsg) :: onThread 1 5

def requesting : Swarm Bool :=
  (run pairNet.step (Net.start pairCfg) pairRequest).get (by decide)

theorem requesting_reachable : pairNet.Reachable pairCfg requesting :=
  reachable_get _

theorem requests_conserved_requesting :
    (requesting.proc true).sh.own.sv[0]? = some .requested ∧
      ∃ s, pairNet.owner s = true ∧ pairNet.tokens requesting s 0 = 1 ∧
        ∀ t, pairNet.owner t = true → t ≠ s →
          pairNet.tokens requesting t 0 = 0 :=
  ⟨by decide,
    (Net.requests_conserved requesting_reachable true 0).1 (by decide)⟩

end CntPeer
