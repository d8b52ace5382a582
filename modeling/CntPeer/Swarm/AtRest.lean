import CntPeer.Process.AtRest
import CntPeer.Process.Eligible
import CntPeer.Process.RequestChain
import CntPeer.Swarm.Answers
import CntPeer.Swarm.TearDown
import CntPeer.Swarm.Workload

/-!
# A swarm at rest

When the threads of a swarm have come to rest and no message can be read, the
two ends of every connection agree: on where they stand, on what each side owns,
wants and allows, and on the requests that have been answered.
-/

namespace CntPeer

open CntPeer.Foundation

namespace Net

variable {Peer : Type*} {net : Net Peer} {w w' : Swarm Peer}
  {q r : Peer} {a : Act} {s : Sid} {cfg : Peer → Config}

def Running (w : Swarm Peer) : Prop := ∀ q, (w.proc q).sh.halt = none

theorem received (hlink : Linked net cfg w) (hrun : Running w) (s : Sid) :
    Received (net.sess w s) :=
  Proc.received_reachable (hlink.procs _) (hrun _) s

theorem heard_closes (hlink : Linked net cfg w)
    (hmem : .actual .tearDownMsg ∈ (net.sess w s).inbox) : w.wire s = [] := by
  obtain ⟨l, hline, -⟩ :=
    Proc.conforms_reachable (hlink.procs (net.owner (net.mate s))) (net.mate s)
  have hsent : ((w.proc (net.owner (net.mate s))).sess (net.mate s)).sent =
      (net.sess w s).inbox ++ w.wire s := hlink.fifo s
  rw [hsent, run_append] at hline
  obtain ⟨l₁, hinbox, hwire⟩ := Option.bind_eq_some_iff.mp hline
  rw [Line.closed_of_tearDown hinbox hmem] at hwire
  exact (Line.run_closed hwire).1

def Reads (net : Net Peer) (w : Swarm Peer) (s : Sid) : Prop :=
  (net.sess w s).pc = .recvHandshake ∨ (net.sess w s).pc = .recvBitfield ∨
    (net.sess w s).scanning = true ∧ (w.proc (net.owner s)).live s = true

theorem readable (hlink : Linked net cfg w) (hrun : Running w)
    (hreads : net.Reads w s) {m : Msg} {rest : List Msg}
    (hwire : w.wire s = m :: rest) :
    ∃ b : SessionAct, b.input = [m] ∧ b.reliable = true ∧
      (Act.session s b).works = true ∧
      (w.proc (net.owner s)).sessionEnabled s b = true := by
  have hsent := hlink.fifo s
  rw [hwire] at hsent
  have hopen := hlink.opening (net.mate s)
  have hrec := received hlink hrun s
  rcases hreads with hpc | hpc | ⟨hscan, hlive⟩
  · rw [hrec.silent (by simp [hpc, Pc.stage]), List.nil_append] at hsent
    have hm := hopen.first hsent
    exact ⟨.recvHandshake _, by rw [hm]; rfl, rfl, rfl,
      decide_eq_true hpc⟩
  · obtain ⟨id, hinbox⟩ := hrec.greeted (by simp [hpc, Pc.stage])
    rw [hinbox] at hsent
    obtain ⟨⟨sv, rfl⟩, -⟩ := hopen.continues hsent
    exact ⟨.recvBitfield (.bitfieldMsg sv), rfl, rfl, rfl,
      decide_eq_true hpc⟩
  · have hph := Proc.phased_reachable (hlink.procs (net.owner s)) s
    have hstage := hph.scanning.mp hscan
    obtain ⟨id, sv, l, hinbox, -⟩ := hrec.opened (le_trans (by decide) hstage)
    rw [hinbox] at hsent
    have hm := (hopen.continues hsent).2 m (by simp)
    cases m with
    | handshakeMsg n => cases hm
    | actual m =>
        refine ⟨.scan m, rfl, rfl, rfl, ?_⟩
        simp only [Proc.sessionEnabled, hlive, Bool.and_true]
        exact hscan

theorem tearDown_sent (hlink : Linked net cfg w)
    (hstage : 11 ≤ (net.sess w s).pc.stage) :
    .actual .tearDownMsg ∈ (net.sess w s).sent := by
  obtain ⟨l, hline, hfits⟩ := Proc.conforms_reachable (hlink.procs (net.owner s)) s
  cases l with
  | closed => exact Line.tearDown_of_closed hline nofun
  | talking u => exact absurd (hstage.trans hfits.2.1) (by decide)
  | fresh => exact absurd (hstage.trans hfits) (by decide)
  | _ => exact absurd (hstage.trans hfits.2) (by decide)

theorem lastInterest_cases {l : List Msg} (h : ∃ m ∈ l, m.isInterest = true) :
    lastInterest l = some (.actual .interestedMsg) ∨
      lastInterest l = some (.actual .notInterestedMsg) := by
  obtain ⟨m, hm, hint⟩ := h
  have hmem : m ∈ interestMsgs l := List.mem_filter.mpr ⟨hm, hint⟩
  have hne := List.ne_nil_of_mem hmem
  have hlast : lastInterest l = some ((interestMsgs l).getLast hne) :=
    List.getLast?_eq_some_getLast hne
  have hkind := (List.mem_filter.mp (List.getLast_mem hne)).2
  rw [hlast]
  revert hkind
  cases (interestMsgs l).getLast hne with
  | handshakeMsg n => exact nofun
  | actual m => cases m <;> simp [Msg.isInterest]

theorem interest_sent (hlink : Linked net cfg w)
    (hstage : (net.sess w s).pc.stage = 8) :
    ∃ m ∈ (net.sess w s).sent, m.isInterest = true := by
  obtain ⟨l, hline, hfits⟩ := Proc.conforms_reachable (hlink.procs (net.owner s)) s
  have hstage' : ((w.proc (net.owner s)).sess s).pc.stage = 8 := hstage
  refine Line.interest_of_started hline rfl ?_
  cases l with
  | talking u | closed => rfl
  | fresh =>
      simp only [Line.Fits] at hfits
      omega
  | _ =>
      simp only [Line.Fits] at hfits
      omega

variable [DecidableEq Peer]

/-- No step continues what has been started. -/
def Resting (net : Net Peer) (w : Swarm Peer) : Prop :=
  ∀ l, l.2.works = true → net.step w l = none

theorem Resting.disabled (h : net.Resting w) (hworks : a.works = true)
    (hadm : net.admits w q a = true) : (w.proc q).enabled a = false := by
  have hnone := h (q, a) hworks
  simp only [step, hadm, if_true, Option.map_eq_none_iff, Proc.step,
    ite_eq_right_iff, reduceCtorEq, imp_false, Bool.not_eq_true] at hnone
  exact hnone

theorem admits_thread {c : Choice} (hs : net.owner s = q) :
    net.admits w q (.session s (.thread c)) = true := by
  simp [admits, hs, SessionAct.input, SessionAct.reliable]

theorem Resting.still (h : net.Resting w) (hlink : Linked net cfg w)
    (hrun : Running w) (q : Peer) : Proc.Still (w.proc q) := by
  intro s
  by_cases hpc : ((w.proc q).sess s).pc = .absent
  · simp [runnable, hpc]
  · have hdis := h.disabled (a := .session s (.thread {})) rfl
      (admits_thread (hlink.attached q s hpc))
    simpa [Proc.enabled, hrun q, Proc.sessionEnabled] using hdis

theorem Resting.idle (h : net.Resting w) (hlink : Linked net cfg w)
    (hrun : Running w) (s : Sid) : Idle (net.sess w s) :=
  (h.still hlink hrun (net.owner s)).idle (hlink.procs _) s

theorem Resting.unread (h : net.Resting w) (hrun : Running w) {b : SessionAct}
    (hworks : (Act.session s b).works = true) (hrel : b.reliable = true)
    (hin : b.input <+: w.wire s) :
    (w.proc (net.owner s)).sessionEnabled s b = false := by
  have hadm : net.admits w (net.owner s) (.session s b) = true := by
    simp [admits, hin, hrel]
  have hdis := h.disabled hworks hadm
  simpa [Proc.enabled, hrun (net.owner s)] using hdis

theorem Resting.empty (h : net.Resting w) (hlink : Linked net cfg w)
    (hrun : Running w) (hreads : net.Reads w s) : w.wire s = [] := by
  match hwire : w.wire s with
  | [] => rfl
  | m :: rest =>
      obtain ⟨b, hin, hrel, hworks, hen⟩ := readable hlink hrun hreads hwire
      have hdis := h.unread hrun hworks hrel
        (by rw [hin, hwire]; exact List.prefix_append [m] rest)
      rw [hen] at hdis
      cases hdis

theorem Resting.wire (h : net.Resting w) (hlink : Linked net cfg w)
    (hrun : Running w) (hpc : (net.sess w s).pc ≠ .absent) :
    w.wire s = [] := by
  have hr := hlink.procs (net.owner s)
  have hph := Proc.phased_reachable hr s
  have hidle := h.idle hlink hrun s
  by_cases hend : (net.sess w s).pc = .ended
  · apply heard_closes hlink
    apply List.mem_append_left
    apply (Proc.heard_reachable hr s).mpr
    exact (congrArg Pc.heard hend).trans rfl
  · apply h.empty hlink hrun
    have hlive := (Proc.lifecycle_reachable hr).live s hpc hend
    have hlive' := Proc.live_iff.mpr ⟨_, hlive, rfl⟩
    revert hidle
    unfold Idle Reads
    cases hpc' : (net.sess w s).pc with
    | recvHandshake | recvBitfield => simp
    | loop | awaitTearDown =>
        refine fun _ => .inr (.inr ⟨?_, hlive'⟩)
        apply hph.scanning.mpr
        exact le_of_le_of_eq (by decide) (congrArg Pc.stage hpc').symm
    | absent => exact absurd hpc' hpc
    | ended => exact absurd hpc' hend
    | _ => simp

/-! ### The two ends of a connection -/

theorem pending_of_idle {x : Session} (h : Idle x)
    (hpc : x.pc = .loop ∨ x.pc = .awaitTearDown) :
    x.events = [] ∧ x.pending = [] := by
  have heq : x.eq = [] := by
    rcases hpc with hpc | hpc
    · simp only [Idle, hpc] at h
      exact h.2
    · simpa only [Idle, hpc] using h
  have hevents : x.events = [] := by
    rcases hpc with hpc | hpc
    all_goals simpa only [Session.events, hpc] using heq
  exact ⟨hevents, by rw [Session.pending, hevents]; rfl⟩

theorem stage_of_idle {x : Session} (h : Idle x) (hpc : x.pc ≠ .absent) :
    4 ≤ x.pc.stage := by
  revert h hpc
  unfold Idle
  cases x.pc <;> simp [Pc.stage]

theorem Resting.sent (h : net.Resting w) (hlink : Linked net cfg w)
    (hrun : Running w) (hpc : (net.sess w s).pc ≠ .absent) :
    (net.sess w (net.mate s)).sent = (net.sess w s).inbox := by
  rw [hlink.fifo, h.wire hlink hrun hpc, List.append_nil]

theorem Resting.handled (h : net.Resting w) (hlink : Linked net cfg w)
    (hrun : Running w)
    (hpc : (net.sess w s).pc = .loop ∨ (net.sess w s).pc = .awaitTearDown) :
    (net.sess w (net.mate s)).sent = (net.sess w s).handled := by
  have hidle := h.idle hlink hrun s
  rw [h.sent hlink hrun (by rcases hpc with hpc | hpc <;> simp [hpc]),
    Session.inbox, (pending_of_idle hidle hpc).2, List.append_nil]

/-- Where the mate of a session that has been created stands, unless it has not
been created itself. -/
theorem Resting.opened (h : net.Resting w) (hlink : Linked net cfg w)
    (hrun : Running w) (hpc : (net.sess w s).pc ≠ .absent)
    (hmate : (net.sess w (net.mate s)).pc ≠ .absent) :
    ∃ n sv rest, (net.sess w s).inbox =
      .handshakeMsg n :: .actual (.bitfieldMsg sv) :: rest := by
  have hstage := stage_of_idle (h.idle hlink hrun (net.mate s)) hmate
  obtain ⟨sv, rest, -, hsent, -⟩ := (hlink.opening (net.mate s)).opened hstage
  rw [h.sent hlink hrun hpc] at hsent
  exact ⟨_, sv, rest, hsent⟩

theorem Resting.unmet (h : net.Resting w) (hlink : Linked net cfg w)
    (hrun : Running w) (hpc : (net.sess w s).pc = .recvHandshake) :
    (net.sess w (net.mate s)).pc = .absent := by
  by_contra hmate
  obtain ⟨n, sv, rest, hinbox⟩ := h.opened hlink hrun (by simp [hpc]) hmate
  rw [(received hlink hrun s).silent (by simp [hpc, Pc.stage])] at hinbox
  cases hinbox

theorem Resting.met (h : net.Resting w) (hlink : Linked net cfg w)
    (hrun : Running w) (hstage : 5 ≤ (net.sess w s).pc.stage) :
    (net.sess w (net.mate s)).pc ≠ .absent := by
  intro hmate
  have hpc : (net.sess w s).pc ≠ .absent := by
    intro hpc
    simp [hpc, Pc.stage] at hstage
  have hsent := h.sent hlink hrun hpc
  rw [(hlink.opening (net.mate s)).silent (by simp [hmate, Pc.stage])] at hsent
  have hrec := received hlink hrun s
  rcases Nat.eq_or_lt_of_le hstage with hfive | hsix
  · obtain ⟨n, hinbox⟩ := hrec.greeted hfive.symm
    rw [hinbox] at hsent
    cases hsent
  · obtain ⟨n, sv, rest, hinbox, -⟩ := hrec.opened hsix
    rw [hinbox] at hsent
    cases hsent

theorem Resting.not_recvBitfield (h : net.Resting w) (hlink : Linked net cfg w)
    (hrun : Running w) (s : Sid) : (net.sess w s).pc ≠ .recvBitfield := by
  intro hpc
  have hmate := h.met hlink hrun (s := s) (by simp [hpc, Pc.stage])
  obtain ⟨n, sv, rest, hinbox⟩ := h.opened hlink hrun (by simp [hpc]) hmate
  obtain ⟨m, hone⟩ := (received hlink hrun s).greeted (by simp [hpc, Pc.stage])
  rw [hone] at hinbox
  cases hinbox

theorem Resting.untold (h : net.Resting w) (hlink : Linked net cfg w)
    (hrun : Running w)
    (hpc : (net.sess w s).pc = .loop ∨ (net.sess w s).pc = .awaitTearDown) :
    (net.sess w (net.mate s)).pc.stage < 11 := by
  by_contra hstage
  have hmem := tearDown_sent hlink (Nat.le_of_not_lt hstage)
  rw [h.handled hlink hrun hpc] at hmem
  have hheard := (Proc.heard_reachable (hlink.procs (net.owner s)) s).mp hmem
  have hnot : (net.sess w s).pc.heard = false := by
    rcases hpc with hpc | hpc
    all_goals
      rw [hpc]
      rfl
  exact absurd hheard (Bool.eq_false_iff.mp hnot)

theorem Resting.talking (h : net.Resting w) (hlink : Linked net cfg w)
    (hrun : Running w) (hpc : (net.sess w s).pc = .loop) :
    (net.sess w (net.mate s)).pc = .loop := by
  have hidle := h.idle hlink hrun (net.mate s)
  have hmet := h.met hlink hrun (s := s) (by simp [hpc, Pc.stage])
  have huntold := h.untold hlink hrun (.inl hpc)
  have hfield := h.not_recvBitfield hlink hrun (net.mate s)
  have hshake := h.unmet hlink hrun (s := net.mate s)
  rw [net.mate_mate, hpc] at hshake
  revert hidle hmet huntold hfield hshake
  unfold Idle
  cases (net.sess w (net.mate s)).pc <;> simp [Pc.stage]

theorem Resting.not_awaitTearDown (h : net.Resting w) (hlink : Linked net cfg w)
    (hrun : Running w) (s : Sid) : (net.sess w s).pc ≠ .awaitTearDown := by
  intro hpc
  have hidle := h.idle hlink hrun (net.mate s)
  have hmet := h.met hlink hrun (s := s) (by simp [hpc, Pc.stage])
  have huntold := h.untold hlink hrun (.inr hpc)
  have hfield := h.not_recvBitfield hlink hrun (net.mate s)
  have hshake := h.unmet hlink hrun (s := net.mate s)
  have htalk := h.talking hlink hrun (s := net.mate s)
  rw [net.mate_mate, hpc] at hshake htalk
  revert hidle hmet huntold hfield hshake htalk
  unfold Idle
  cases (net.sess w (net.mate s)).pc <;> simp [Pc.stage]

theorem Resting.ended (h : net.Resting w) (hlink : Linked net cfg w)
    (hrun : Running w) (hpc : (net.sess w s).pc = .ended) :
    (net.sess w (net.mate s)).pc = .ended := by
  have hidle := h.idle hlink hrun (net.mate s)
  have hmet := h.met hlink hrun (s := s) (by simp [hpc, Pc.stage])
  have hfield := h.not_recvBitfield hlink hrun (net.mate s)
  have hawait := h.not_awaitTearDown hlink hrun (net.mate s)
  have hshake := h.unmet hlink hrun (s := net.mate s)
  have htalk := h.talking hlink hrun (s := net.mate s)
  rw [net.mate_mate, hpc] at hshake htalk
  revert hidle hmet hfield hawait hshake htalk
  unfold Idle
  cases (net.sess w (net.mate s)).pc <;> simp

/-! ### Requests -/

theorem settling_of_idle {x : Session} (h : Idle x) : Proc.settling x.pc = false := by
  revert h
  unfold Idle
  cases x.pc <;> simp [Proc.settling]

theorem Resting.settled (h : net.Resting w) (hlink : Linked net cfg w)
    (hrun : Running w) (q : Peer) (u : Sid) :
    Proc.settling ((w.proc q).sess u).pc = false :=
  settling_of_idle ((h.still hlink hrun q).idle (hlink.procs q) u)

theorem Resting.complete (h : net.Resting w) (hlink : Linked net cfg w)
    (hrun : Running w) (hpc : (net.sess w s).pc = .ended) {i : Nat}
    (hi : i < (w.proc (net.owner s)).sh.own.sv.length) :
    (w.proc (net.owner s)).sh.own.sv[i]? = some .owned := by
  have hr := hlink.procs (net.owner s)
  have hdone := (Proc.phased_reachable hr s).teardown
    (le_of_le_of_eq (by decide) (congrArg Pc.stage hpc).symm)
  have hall := (Proc.doneAgrees_reachable hr s hdone).1
  exact Proc.all_owned hr hall (h.settled hlink hrun _) i hi

theorem no_tokens_of_idle {x : Session} (h : Idle x) (hquiet : Quiet x)
    (hpc : x.pc ≠ .ended) (i : Nat) : asking x i = 0 ∧ serving x i = 0 := by
  have hpend : x.pending = [] := by
    by_cases hlow : x.pc.stage ≤ 6
    · exact hquiet hlow
    · apply (pending_of_idle h _).2
      revert h hpc hlow
      unfold Idle
      cases x.pc <;> simp [Pc.stage]
  have hplace : x.pc.holds i = 0 ∧ x.pc.owes i = 0 := by
    revert h
    unfold Idle
    cases x.pc <;> simp [Pc.holds, Pc.owes, Pc.accepting, Pc.answering]
  rw [asking, serving, hpend, hplace.1, hplace.2]
  exact ⟨rfl, rfl⟩

theorem Resting.unread_opens (h : net.Resting w) (hlink : Linked net cfg w)
    (hrun : Running w) (s : Sid) : ∀ m ∈ w.wire s, m.opens = true := by
  intro m hm
  have hpc : (net.sess w s).pc = .absent := by
    by_contra hpc
    rw [h.wire hlink hrun hpc] at hm
    cases hm
  have hlow : (net.sess w (net.mate s)).pc.stage ≤ 6 := by
    by_contra hhigh
    have hmet := h.met hlink hrun (s := net.mate s) (by omega)
    rw [net.mate_mate] at hmet
    exact hmet hpc
  apply Proc.setup_sent (hlink.procs _) hlow
  have hsent := hlink.fifo s
  rw [sess] at hsent
  rw [hsent]
  exact List.mem_append_right _ hm

theorem count_of_opens {l : List Msg} (h : ∀ m ∈ l, m.opens = true) (i : Nat) :
    requests i l = 0 ∧ pieces i l = 0 := by
  constructor
  all_goals
    apply List.countP_eq_zero.mpr
    intro m hm
    have hopens := h m hm
    cases m with
    | handshakeMsg n => simp [isRequest, isPiece]
    | actual m => cases m <;> simp_all [isRequest, isPiece, Msg.opens]

theorem Resting.no_requests (h : net.Resting w) (hlink : Linked net cfg w)
    (hcon : net.Conserved w) (hrun : Running w) (q : Peer) (i : Nat) :
    (w.proc q).sh.own.sv[i]? ≠ some .requested := by
  intro hreq
  cases hcon q i with
  | settled status none => exact status hreq
  | requested s status owner one others =>
      subst owner
      have hended : (net.sess w s).pc ≠ .ended := by
        intro hpc
        obtain ⟨hi, -⟩ := List.getElem?_eq_some_iff.mp status
        rw [h.complete hlink hrun hpc hi] at status
        cases status
      have hmate : (net.sess w (net.mate s)).pc ≠ .ended := by
        intro hpc
        have hpc' := h.ended hlink hrun hpc
        rw [net.mate_mate] at hpc'
        exact hended hpc'
      have hquiet := fun t => Proc.quiet_reachable (hlink.procs (net.owner t)) t
      have hself := no_tokens_of_idle (h.idle hlink hrun s) (hquiet s) hended i
      have hother := no_tokens_of_idle (h.idle hlink hrun (net.mate s))
        (hquiet (net.mate s)) hmate i
      have hwire := count_of_opens (h.unread_opens hlink hrun s) i
      have hwire' := count_of_opens (h.unread_opens hlink hrun (net.mate s)) i
      rw [tokens] at one
      omega

/-! ### Views -/

theorem not_passing {pc : Pc} (h : Proc.settling pc = false) (s : Sid) (i : Nat) :
    ¬Passing pc s i := by
  revert h
  cases pc <;> simp [Proc.settling, Passing]

theorem Resting.announced (h : net.Resting w) (hlink : Linked net cfg w)
    (hrun : Running w) (hpc : (net.sess w s).pc = .loop) {i : Nat}
    (hi : (w.proc (net.owner s)).sh.own.sv[i]? = some .owned) :
    Announced (net.sess w s) i := by
  have hr := hlink.procs (net.owner s)
  have hph := Proc.phased_reachable hr s
  have hstage : ((w.proc (net.owner s)).sess s).pc.stage = 8 :=
    congrArg Pc.stage hpc
  rcases Proc.covered_reachable hr s (hph.bfMsg.mpr (by omega)) (by omega) i hi with
    (hann | hqueue | hdrain) | ⟨u, hpass⟩
  · exact hann
  · have hevents := (pending_of_idle (h.idle hlink hrun s) (.inl hpc)).1
    rw [sess] at hevents
    rw [hevents] at hqueue
    cases hqueue
  · cases hpc.symm.trans hdrain
  · exact absurd hpass (not_passing (h.settled hlink hrun _ u) s i)

theorem Resting.view (h : net.Resting w) (hlink : Linked net cfg w)
    (hrun : Running w) (hpc : (net.sess w s).pc = .loop) (i : Nat) :
    (net.sess w s).peerSv[i]? = some .owned ↔
      (w.proc (net.owner (net.mate s))).sh.own.sv[i]? = some .owned := by
  refine ⟨hlink.view, fun hi => ?_⟩
  have hpc' := h.talking hlink hrun hpc
  have hann := h.announced hlink hrun hpc' hi
  have hstage : 4 ≤ ((w.proc (net.owner (net.mate s))).sess (net.mate s)).pc.stage :=
    le_of_le_of_eq (by decide) (congrArg Pc.stage hpc').symm
  obtain ⟨m, hm, htell⟩ := Proc.told_of_announced (hlink.procs _) hstage hann
  have hsent := h.handled hlink hrun (.inl hpc)
  rw [sess] at hsent
  rw [hsent] at hm
  exact (Proc.viewed_reachable (hlink.procs (net.owner s)) s).complete
    (congrArg Pc.stage hpc).le i m hm htell

def Complete (net : Net Peer) (w : Swarm Peer) (s : Sid) : Prop :=
  ∀ i, i < (w.proc (net.owner s)).sh.own.sv.length →
    (w.proc (net.owner s)).sh.own.sv[i]? = some .owned

theorem Resting.incomplete (h : net.Resting w) (hlink : Linked net cfg w)
    (hrun : Running w) (hpc : (net.sess w s).pc = .loop) :
    ¬(net.Complete w s ∧ net.Complete w (net.mate s)) := by
  rintro ⟨hself, hmate⟩
  have hr := hlink.procs (net.owner s)
  have hstage : ((w.proc (net.owner s)).sess s).pc.stage = 8 :=
    congrArg Pc.stage hpc
  have hpeer := (Proc.phased_reachable hr s).peerOwn.mpr (by omega)
  have hall : (net.sess w s).peerAll = true := by
    refine peerAll_of_peerSv hpeer fun i hi => ?_
    apply (h.view hlink hrun hpc i).mpr
    apply hmate
    rwa [← hlink.peerSv_length (hstage ▸ by decide)]
  have htold : ∀ i, i < (cfg (net.owner s)).nPieces → Announced (net.sess w s) i :=
    fun i hi => h.announced hlink hrun hpc
      (hself i ((Proc.owning_reachable hr).length ▸ hi))
  have hidle := h.idle hlink hrun s
  simp only [Idle, hpc] at hidle
  rcases Proc.alert_reachable hr s (hstage ▸ by decide) htold hall with
    hdone | hbcast | hbcast
  · exact absurd hdone (Bool.eq_false_iff.mp hidle.1)
  · cases hpc.symm.trans hbcast
  · cases hpc.symm.trans hbcast

/-! ### Interest -/

def Offers (net : Net Peer) (w : Swarm Peer) (s : Sid) : Prop :=
  ∃ i : Nat, (w.proc (net.owner s)).sh.own.sv[i]? = some .owned ∧
    (w.proc (net.owner (net.mate s))).sh.own.sv[i]? ≠ some .owned

theorem Resting.told_interest (h : net.Resting w) (hlink : Linked net cfg w)
    (hcon : net.Conserved w) (hrun : Running w) (hpc : (net.sess w s).pc = .loop) :
    (lastInterest (net.sess w s).sent = some (.actual .interestedMsg) ∧
        net.Offers w (net.mate s)) ∨
      (lastInterest (net.sess w s).sent = some (.actual .notInterestedMsg) ∧
        ¬net.Offers w (net.mate s)) := by
  have hr := hlink.procs (net.owner s)
  have hstage : (net.sess w s).pc.stage = 8 := congrArg Pc.stage hpc
  have hview := h.view hlink hrun hpc
  rcases lastInterest_cases (interest_sent hlink hstage) with hlast | hlast
  · refine .inl ⟨hlast, ?_⟩
    have hidle := h.idle hlink hrun s
    have hevents := (pending_of_idle hidle (.inl hpc)).1
    simp only [Idle, hpc] at hidle
    cases Proc.justified_reachable hr s hlast with
    | wanted i peer own =>
        refine ⟨i, (hview i).mp peer, ?_⟩
        rwa [net.mate_mate]
    | queued i mem =>
        rw [sess] at hevents
        rw [hevents] at mem
        cases mem
    | inHand stands => cases hpc.symm.trans stands
    | passing u i pass =>
        exact absurd pass (not_passing (h.settled hlink hrun _ u) s i)
    | done isDone => exact absurd isDone (Bool.eq_false_iff.mp hidle.1)
  · refine .inr ⟨hlast, ?_⟩
    rintro ⟨i, hpeer, hself⟩
    rw [net.mate_mate] at hself
    have hhonest := Proc.honest_reachable hr s
    have hsv := (hview i).mpr hpeer
    have habs := hhonest.honest hlast (by
      intro hpc'
      cases hpc.symm.trans hpc') i hsv
    obtain ⟨hi, -⟩ := List.getElem?_eq_some_iff.mp hsv
    have hlen : (net.sess w s).peerSv.length =
        (w.proc (net.owner s)).sh.own.sv.length :=
      hhonest.size (le_of_le_of_eq (by decide) hstage.symm)
    rcases Proc.known_status hr (hlen ▸ hi) with hst | hst | hst
    · exact habs hst
    · exact h.no_requests hlink hcon hrun (net.owner s) i hst
    · exact hself hst

/-! ### The swarm at rest -/

/-- How the two ends of a connection stand. -/
inductive Ends (net : Net Peer) (w : Swarm Peer) (s : Sid) : Prop
  | unmet (here : (net.sess w s).pc = .absent ∨ (net.sess w s).pc = .recvHandshake)
      (there : (net.sess w (net.mate s)).pc = .absent ∨
        (net.sess w (net.mate s)).pc = .recvHandshake)
      (one : (net.sess w s).pc = .absent ∨ (net.sess w (net.mate s)).pc = .absent)
  | talking (here : (net.sess w s).pc = .loop)
      (there : (net.sess w (net.mate s)).pc = .loop)
      (lacks : ¬(net.Complete w s ∧ net.Complete w (net.mate s)))
  | parted (here : (net.sess w s).pc = .ended)
      (there : (net.sess w (net.mate s)).pc = .ended)
      (all : net.Complete w s ∧ net.Complete w (net.mate s))

theorem Resting.ends (h : net.Resting w) (hlink : Linked net cfg w)
    (hrun : Running w) (s : Sid) : Ends net w s := by
  have hidle := h.idle hlink hrun s
  have hidle' := h.idle hlink hrun (net.mate s)
  cases hpc : (net.sess w s).pc with
  | absent =>
      refine .unmet (.inl hpc) ?_ (.inl hpc)
      have hmet : ¬5 ≤ (net.sess w (net.mate s)).pc.stage := by
        intro hstage
        have hmate := h.met hlink hrun hstage
        rw [net.mate_mate] at hmate
        exact hmate hpc
      revert hidle' hmet
      unfold Idle
      cases (net.sess w (net.mate s)).pc <;> simp [Pc.stage]
  | recvHandshake =>
      have hmate := h.unmet hlink hrun hpc
      exact .unmet (.inr hpc) (.inl hmate) (.inr hmate)
  | recvBitfield => exact absurd hpc (h.not_recvBitfield hlink hrun s)
  | loop =>
      exact .talking hpc (h.talking hlink hrun hpc) (h.incomplete hlink hrun hpc)
  | awaitTearDown => exact absurd hpc (h.not_awaitTearDown hlink hrun s)
  | ended =>
      have hmate := h.ended hlink hrun hpc
      exact .parted hpc hmate
        ⟨fun i => h.complete hlink hrun hpc, fun i => h.complete hlink hrun hmate⟩
  | _ => simp [Idle, hpc] at hidle

/--
In a swarm at rest the two ends of every connection stand at matching places:
one of them has not been created, or both wait in their event loops and somebody
lacks a piece, or both have ended and nobody does.  Nothing that was written to
a created session is unread.
-/
theorem ends_agree (h : net.Reachable cfg w) (hrun : Running w)
    (hrest : net.Resting w) (s : Sid) :
    Ends net w s ∧ ((net.sess w s).pc ≠ .absent → w.wire s = []) :=
  have hlink := linked_reachable h
  ⟨hrest.ends hlink hrun s, hrest.wire hlink hrun⟩

/--
In a swarm at rest the two ends of a connection that is not torn down agree:
each knows what the other owns, what the other wants and whether the other has
unchoked it.
-/
theorem views_agree (h : net.Reachable cfg w) (hrun : Running w)
    (hrest : net.Resting w) (hpc : (net.sess w s).pc = .loop) :
    (∀ i : Nat, (net.sess w s).peerSv[i]? = some .owned ↔
      (w.proc (net.owner (net.mate s))).sh.own.sv[i]? = some .owned) ∧
    ((net.sess w s).peerInterest = .interested ↔ net.Offers w s) ∧
    ((net.sess w s).peerInterest = .notInterested ↔ ¬net.Offers w s) ∧
    ((net.sess w s).selfChoke = .unchoked ↔
      lastChoke (net.sess w (net.mate s)).sent = some (.actual .unchokeMsg)) := by
  have hlink := linked_reachable h
  have hr := hlink.procs (net.owner s)
  have hstage : ((w.proc (net.owner s)).sess s).pc.stage ≤ 8 :=
    (congrArg Pc.stage hpc).le
  have hsent := hrest.handled hlink hrun (.inl hpc)
  have hheeded := Proc.heeded_reachable hr s hstage
  have htold := hrest.told_interest hlink (conserved_reachable h) hrun
    (hrest.talking hlink hrun hpc)
  rw [net.mate_mate, hsent] at htold
  have hinterest : ((net.sess w s).peerInterest = .interested ∧ net.Offers w s) ∨
      ((net.sess w s).peerInterest = .notInterested ∧ ¬net.Offers w s) := by
    rw [sess] at htold ⊢
    rw [hheeded]
    rcases htold with ⟨hlast, hoffer⟩ | ⟨hlast, hoffer⟩
    · exact .inl ⟨by rw [hlast]; rfl, hoffer⟩
    · exact .inr ⟨by rw [hlast]; rfl, hoffer⟩
  refine ⟨hrest.view hlink hrun hpc, ?_, ?_, ?_⟩
  · rcases hinterest with ⟨hint, hoffer⟩ | ⟨hint, hoffer⟩
    · simp [hint, hoffer]
    · simp [hint, hoffer]
  · rcases hinterest with ⟨hint, hoffer⟩ | ⟨hint, hoffer⟩
    · simp [hint, hoffer]
    · simp [hint, hoffer]
  · rw [hsent]
    exact Proc.follows_reachable hr s hstage

theorem Resting.no_tokens (h : net.Resting w) (hlink : Linked net cfg w)
    (hcon : net.Conserved w) (hrun : Running w) (s : Sid) (i : Nat) :
    net.tokens w s i = 0 := by
  cases hcon (net.owner s) i with
  | requested t status owner one others =>
      exact absurd status (h.no_requests hlink hcon hrun _ i)
  | settled status none => exact none s rfl

/--
In a swarm at rest no piece is marked as requested, every request that was ever
written has been answered and the answer taken up, and over a connection that is
not torn down the answers came in the order of the requests.
-/
theorem requests_answered (h : net.Reachable cfg w) (hrun : Running w)
    (hrest : net.Resting w) :
    (∀ q (i : Nat), (w.proc q).sh.own.sv[i]? ≠ some .requested) ∧
    ∀ s, (∀ i : Nat, .actual (.requestMsg i) ∈ (net.sess w s).sent →
        ∃ d, .actual (.pieceMsg i d) ∈ (net.sess w s).handled) ∧
      ((net.sess w s).pc = .loop →
        pieceIds (net.sess w s).handled = requestIds (net.sess w s).sent) := by
  have hlink := linked_reachable h
  have hcon := conserved_reachable h
  refine ⟨hrest.no_requests hlink hcon hrun, fun s => ⟨fun i hi => ?_, fun hpc => ?_⟩⟩
  · rcases answered_reachable h s i hi with hpos | hd
    · rw [hrest.no_tokens hlink hcon hrun s i] at hpos
      cases hpos
    · exact hd
  · have hpc' := hrest.talking hlink hrun hpc
    have hback := hrest.handled hlink hrun (.inl hpc')
    rw [net.mate_mate] at hback
    obtain ⟨rest, hids, hnil⟩ :=
      Proc.answers_reachable (hlink.procs (net.owner (net.mate s))) (net.mate s)
    have hplace : (net.sess w (net.mate s)).pc.answering = none := by
      rw [hpc']
      rfl
    rw [hnil (congrArg Pc.stage hpc').le, List.append_nil] at hids
    calc pieceIds (net.sess w s).handled
        = pieceIds (net.sess w (net.mate s)).sent := by
          rw [hrest.handled hlink hrun (.inl hpc)]
      _ = pieceIds (net.sess w (net.mate s)).sent ++
            (net.sess w (net.mate s)).pc.answering.toList.map Nat.cast := by
          rw [hplace]
          simp
      _ = requestIds (net.sess w (net.mate s)).handled := hids
      _ = requestIds (net.sess w s).sent := by rw [hback]

/-- On every session that handles a HAVE for an eligible piece while unchoked, a
request is outstanding. -/
def AsksOnHave (w : Swarm Peer) (l : Peer × Act) : Prop :=
  Proc.AsksOnHave (w.proc l.1) l.2

instance (w : Swarm Peer) (l : Peer × Act) : Decidable (AsksOnHave w l) :=
  inferInstanceAs (Decidable (Proc.AsksOnHave _ _))

theorem proc_reaches {ok : Proc → Act → Prop}
    (h : Reaches net.step (fun w l => l.1 = q → ok (w.proc q) l.2) (start cfg) w) :
    Reaches Proc.step ok (Proc.init (cfg q)) (w.proc q) := by
  refine h.invariant (I := fun w =>
    Reaches Proc.step ok (Proc.init (cfg q)) (w.proc q)) .start ?_
  rintro w ⟨r, a⟩ w' - ih hok hstep
  by_cases hr : r = q
  · subst hr
    exact .tail ih (hok rfl) (proc_self hstep)
  · rwa [proc_of_ne hstep (Ne.symm hr)]

theorem asks_reaches (h : Reaches net.step AsksOnHave (start cfg) w) (q : Peer) :
    Reaches Proc.step Proc.AsksOnHave (Proc.init (cfg q)) (w.proc q) :=
  proc_reaches (h.mono fun _ _ hok hq => hq ▸ hok)

theorem Resting.choked (h : net.Resting w) (hr : net.Reachable cfg w)
    (hrun : Running w)
    (hchain : Chained (w.proc (net.owner s)).sh.own.sv (net.sess w s))
    (hpc : (net.sess w s).pc = .loop) (hoffers : net.Offers w (net.mate s)) :
    lastChoke (net.sess w (net.mate s)).sent ≠ some (.actual .unchokeMsg) := by
  intro hlast
  obtain ⟨i, hpeer, hself⟩ := hoffers
  have hlink := linked_reachable hr
  have hcon := conserved_reachable hr
  have hproc := hlink.procs (net.owner s)
  have hstage : (net.sess w s).pc.stage ≤ 8 := (congrArg Pc.stage hpc).le
  rw [net.mate_mate] at hself
  rw [h.handled hlink hrun (.inl hpc)] at hlast
  have hunch := (Proc.follows_reachable hproc s hstage).mpr hlast
  have hview := (h.view hlink hrun hpc i).mpr hpeer
  have hknown : (w.proc (net.owner s)).sh.own.sv[i]? = some .absent := by
    have hlen := (Proc.honest_reachable hproc s).size
      (le_of_le_of_eq (by decide) (congrArg Pc.stage hpc).symm)
    obtain ⟨hi, -⟩ := List.getElem?_eq_some_iff.mp hview
    rcases Proc.known_status hproc (hlen ▸ hi) with hst | hst | hst
    · exact hst
    · exact absurd hst (h.no_requests hlink hcon hrun _ i)
    · exact absurd hst hself
  have hidle : (net.sess w s).pc.requesting = false := by
    rw [hpc]
    rfl
  obtain ⟨j, hj, hnone⟩ := hchain.alive hstage hidle hunch i hview hknown
  rcases answered_reachable hr s j hj with hpos | ⟨d, hd⟩
  · rw [h.no_tokens hlink hcon hrun s j] at hpos
    cases hpos
  · exact hnone d hd

/--
In a swarm at rest whose sessions asked on every HAVE, a peer that offers
something has not unchoked the session that lacks it: what is missing is missing
behind choked links.
-/
theorem missing_choked (h : Reaches net.step AsksOnHave (start cfg) w)
    (hrun : Running w) (hrest : net.Resting w) (s : Sid) :
    ¬((net.sess w s).pc = .loop ∧ net.Offers w (net.mate s) ∧
      lastChoke (net.sess w (net.mate s)).sent = some (.actual .unchokeMsg)) :=
  fun ⟨hpc, hoffers, hlast⟩ => hrest.choked h.reachable hrun
    (Proc.chained_reaches (asks_reaches h _) s) hpc hoffers hlast

/-! ### Runs that end at rest -/

def ofSession : Act → Option Sid
  | .session s _ => some s
  | _ => none

theorem untouched {ok : Swarm Peer → Peer × Act → Prop} [∀ w l, Decidable (ok w l)]
    {as : List (Peer × Act)} (hrun : run (checkedStep net.step ok) w as = some w')
    (has : ∀ l ∈ as, ofSession l.2 ≠ some s) :
    (net.sess w' s).pc = (net.sess w s).pc ∧
      (net.sess w' s).expectedPeerId = (net.sess w s).expectedPeerId := by
  induction as generalizing w with
  | nil =>
      cases hrun
      exact ⟨rfl, rfl⟩
  | cons l as ih =>
      obtain ⟨w₁, hfirst, hrest⟩ := Option.bind_eq_some_iff.mp hrun
      have hstep := (checkedStep_eq_some.mp hfirst).2
      have htail := ih hrest fun l' hl' => has l' (List.mem_cons_of_mem _ hl')
      by_cases hs : net.owner s = l.1
      · rcases Proc.sess_step (proc_self hstep) s with ⟨es, hsess⟩ | ⟨b, hb, -⟩
        · rw [← sess_of_owner hs, ← sess_of_owner hs] at hsess
          rw [hsess] at htail
          exact htail
        · exact absurd (congrArg ofSession hb) (has l List.mem_cons_self)
      · rwa [sess_of_ne hstep hs] at htail

theorem resting_of_still (hlink : Linked net cfg w) (l : List Sid)
    (hcreated : ∀ s, s ∉ l → (net.sess w s).pc = .absent)
    (hstill : ∀ s ∈ l, runnable (w.proc (net.owner s)) s = false ∧ w.wire s = [])
    (hclean : ∀ q, (w.proc q).enabled .cleanUp = false) : net.Resting w := by
  rintro ⟨q, a⟩ hworks
  by_contra hstep
  obtain ⟨w', hstep⟩ := Option.ne_none_iff_exists'.mp hstep
  have hproc := proc_self hstep
  cases a with
  | session s b =>
      have howner := owner_of_session hstep
      have hen := (Proc.session_step hproc).1
      have hin := input_on_wire hstep s
      subst howner
      by_cases hs : s ∈ l
      · obtain ⟨hrun, hwire⟩ := hstill s hs
        rw [hwire, Act.inputAt, if_pos rfl] at hin
        cases b with
        | thread c =>
            rw [Proc.sessionEnabled, hrun] at hen
            cases hen
        | recvHandshake _ | recvBitfield _ | scan _ =>
            cases List.prefix_nil.mp hin
        | create _ _ | readFails _ | received _ => cases hworks
      · have hpc : ((w.proc (net.owner s)).sess s).pc = .absent := hcreated s hs
        have hph := Proc.phased_reachable (hlink.procs (net.owner s)) s
        cases b with
        | thread c => simp [Proc.sessionEnabled, runnable, hpc] at hen
        | recvHandshake _ | recvBitfield _ => simp [Proc.sessionEnabled, hpc] at hen
        | scan m =>
            have hscan : ((w.proc (net.owner s)).sess s).scanning = false := by
              apply Bool.eq_false_iff.mpr
              intro hscan
              have hstage := hph.scanning.mp hscan
              simp [hpc, Pc.stage] at hstage
            simp [Proc.sessionEnabled, hscan] at hen
        | create _ _ | readFails _ | received _ => cases hworks
  | cleanUp =>
      have hen := (Proc.step_eq_some.mp hproc).1
      rw [hclean q] at hen
      cases hen
  | pnTick _ | optTick _ | exit => cases hworks

theorem absent_outside {ok : Swarm Peer → Peer × Act → Prop}
    [∀ w l, Decidable (ok w l)] {as : List (Peer × Act)} {l : List Sid}
    (hrun : run (checkedStep net.step ok) (start cfg) as = some w)
    (has : ∀ a ∈ as, ofSession a.2 ∈ none :: l.map some) (hs : s ∉ l) :
    (net.sess w s).pc = .absent ∧
      (net.sess w s).expectedPeerId = epidNoPreference := by
  refine untouched hrun fun a ha heq => ?_
  have hmem := has a ha
  rw [heq] at hmem
  obtain ⟨t, ht, hts⟩ := List.mem_map.mp ((List.mem_cons.mp hmem).resolve_left nofun)
  cases hts
  exact hs ht

theorem resting_of_run {ok : Swarm Peer → Peer × Act → Prop}
    [∀ w l, Decidable (ok w l)] {as : List (Peer × Act)} {l : List Sid}
    (hrun : run (checkedStep net.step ok) (start cfg) as = some w)
    (has : ∀ a ∈ as, ofSession a.2 ∈ none :: l.map some)
    (hstill : ∀ s ∈ l, runnable (w.proc (net.owner s)) s = false ∧ w.wire s = [])
    (hclean : ∀ q, (w.proc q).enabled .cleanUp = false) : net.Resting w := by
  have hreach : Reaches net.step ok (start cfg) w := reaches_of_checkedRun hrun
  exact resting_of_still (linked_reachable hreach.reachable) l
    (fun s hs => (absent_outside hrun has hs).1) hstill hclean

end Net

def waitingRun : List (Bool × Act) :=
  onSess 0 (.create 0 epidNoPreference) :: onThread 0 3 ++
    onSess 1 (.create 0 epidNoPreference) :: onThread 1 3 ++
    [onSess 0 (.recvHandshake 1), onSess 0 (.recvBitfield (.bitfieldMsg [.absent])),
      onSess 1 (.recvHandshake 1), onSess 1 (.recvBitfield (.bitfieldMsg [.absent]))] ++
    onThread 0 2 ++ onThread 1 2 ++
    onSess 0 (.scan .notInterestedMsg) :: onThread 0 2 ++
    onSess 1 (.scan .notInterestedMsg) :: onThread 1 2 ++
    onSess 0 (.scan .chokeMsg) :: onThread 0 2 ++
    onSess 1 (.scan .chokeMsg) :: onThread 1 2

theorem waitingRun_runs : (run (checkedStep pairNet.step Net.AsksOnHave)
    (Net.start fun _ => Proc.leech) waitingRun).isSome = true := by
  decide

def waiting : Swarm Bool :=
  (run (checkedStep pairNet.step Net.AsksOnHave) (Net.start fun _ => Proc.leech)
    waitingRun).get waitingRun_runs

theorem waiting_reaches :
    Reaches pairNet.step Net.AsksOnHave (Net.start fun _ => Proc.leech) waiting :=
  reaches_get waitingRun_runs

theorem waiting_running : Net.Running waiting := by
  unfold Net.Running
  decide

theorem waiting_rests : pairNet.Resting waiting := by
  have hrun : run (checkedStep pairNet.step Net.AsksOnHave)
      (Net.start fun _ => Proc.leech) waitingRun = some waiting :=
    (Option.some_get waitingRun_runs).symm
  have hids : ∀ a ∈ waitingRun, Net.ofSession a.2 ∈ none :: [0, 1].map some := by decide
  exact Net.resting_of_run hrun hids (by decide) (by decide)

theorem views_agree_waiting :
    (pairNet.sess waiting 0).pc = .loop ∧
      ((pairNet.sess waiting 0).selfChoke = .unchoked ↔
        lastChoke (pairNet.sess waiting 1).sent = some (.actual .unchokeMsg)) :=
  ⟨by decide, (Net.views_agree waiting_reaches.reachable waiting_running
    waiting_rests (by decide)).2.2.2⟩

theorem missing_choked_waiting :
    (pairNet.sess waiting 0).pc = .loop ∧
      ¬((pairNet.sess waiting 0).pc = .loop ∧ pairNet.Offers waiting 1 ∧
        lastChoke (pairNet.sess waiting 1).sent = some (.actual .unchokeMsg)) :=
  ⟨by decide, Net.missing_choked waiting_reaches waiting_running waiting_rests 0⟩

def finishedRun : List (Bool × Act) :=
  pairParting ++ onThread 0 4 ++ onSess 1 (.scan .tearDownMsg) :: onThread 1 3 ++
    [(false, .cleanUp), (true, .cleanUp)]

def pairMesh (q : Bool) : Config := { pairCfg q with totalPeerCount := 2 }

theorem finishedRun_runs : (run (checkedStep pairNet.step Net.DrainsStartSettled)
    (Net.start pairMesh) finishedRun).isSome = true := by
  decide +kernel

def finished : Swarm Bool :=
  (run (checkedStep pairNet.step Net.DrainsStartSettled) (Net.start pairMesh)
    finishedRun).get finishedRun_runs

theorem finished_run : run (checkedStep pairNet.step Net.DrainsStartSettled)
    (Net.start pairMesh) finishedRun = some finished :=
  (Option.some_get finishedRun_runs).symm

theorem finished_reaches :
    Reaches pairNet.step Net.DrainsStartSettled (Net.start pairMesh) finished :=
  reaches_of_checkedRun finished_run

theorem finished_running : Net.Running finished := by
  unfold Net.Running
  decide +kernel

theorem finishedRun_sessions :
    ∀ a ∈ finishedRun, Net.ofSession a.2 ∈ none :: [0, 1].map some := by
  decide +kernel

theorem finished_rests : pairNet.Resting finished :=
  Net.resting_of_run finished_run finishedRun_sessions (by decide +kernel)
    (by decide +kernel)

theorem ends_agree_finished :
    (pairNet.sess finished 0).pc = .ended ∧ Net.Ends pairNet finished 0 :=
  ⟨by decide +kernel, (Net.ends_agree finished_reaches.reachable finished_running
    finished_rests 0).1⟩

theorem requests_answered_finished :
    .actual (.requestMsg 0) ∈ (pairNet.sess finished 1).sent ∧
      ∃ d, .actual (.pieceMsg 0 d) ∈ (pairNet.sess finished 1).handled := by
  have hsent : .actual (.requestMsg 0) ∈ (pairNet.sess finished 1).sent := by
    decide +kernel
  exact ⟨hsent, ((Net.requests_answered finished_reaches.reachable finished_running
    finished_rests).2 1).1 0 hsent⟩

end CntPeer
