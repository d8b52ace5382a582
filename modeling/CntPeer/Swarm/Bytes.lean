import CntPeer.Foundation.Bisimulation
import CntPeer.Swarm.Stream

/-!
# Bytes and messages

Once a whole message has arrived its reader takes it up, so every run over
messages is also a run over bytes: the two levels have the same states.
-/

namespace CntPeer

open CntPeer.Foundation CntPeer.Foundation.Reader

theorem input_of_head {a : SessionAct} {m : Msg} {l : List Msg} (hne : a.input ≠ [])
    (h : a.input <+: m :: l) : a.input = [m] := by
  cases a with
  | recvHandshake _ | recvBitfield _ | scan _ =>
      obtain ⟨-, h⟩ := List.cons_prefix_cons.mp h
      simp_all [SessionAct.input]
  | _ => exact absurd rfl hne

theorem reader_of_scanning {md5 : List UInt8 → Digest} {x : Session} (hph : Phased x)
    (hscan : x.scanning = true) :
    reader md5 x = do
      let m ← ActualMsg.readFrom md5
      return .scan m := by
  have hhigh := hph.scanning.mp hscan
  unfold reader
  split
  · rename_i hpc
    rw [hpc] at hhigh
    exact absurd hhigh (by decide)
  · rename_i hpc
    rw [hpc] at hhigh
    exact absurd hhigh (by decide)
  · rfl

theorem eq_of_reader {md5 : List UInt8 → Digest} {p : Proc} {s : Sid}
    {a a' : SessionAct} {l rest : List UInt8} (hph : Phased (p.sess s))
    (hread : reader md5 (p.sess s) l = .done a rest)
    (hen : p.sessionEnabled s a' = true) (hinput : a.input = a'.input)
    (hne : a'.input ≠ []) : a = a' := by
  cases a' with
  | recvHandshake id =>
      have hpc : (p.sess s).pc = .recvHandshake := by
        simpa [Proc.sessionEnabled] using hen
      rw [reader, hpc] at hread
      obtain ⟨id', rfl⟩ := eq_of_then_pure hread
      simpa [SessionAct.input] using hinput
  | recvBitfield m =>
      have hpc : (p.sess s).pc = .recvBitfield := by
        simpa [Proc.sessionEnabled] using hen
      rw [reader, hpc] at hread
      obtain ⟨m', rfl⟩ := eq_of_then_pure hread
      simpa [SessionAct.input] using hinput
  | scan m =>
      simp only [Proc.sessionEnabled, Bool.and_eq_true] at hen
      rw [reader_of_scanning hph hen.1] at hread
      obtain ⟨m', rfl⟩ := eq_of_then_pure hread
      simpa [SessionAct.input] using hinput
  | _ => exact absurd rfl hne

namespace Net

variable {Peer : Type*} {net : Net Peer} {md5 : List UInt8 → Digest}
  {w w' : Swarm Peer} {b b' : ByteSwarm Peer} {q : Peer} {a : Act} {s : Sid}
  {cfg : Peer → Config} {F : List UInt8} {size : Nat}

/-- The labels of one step, over bytes and over messages. -/
inductive SameStep : Peer × ByteAct → Peer × Act → Prop
  | act {q : Peer} {a : Act} : SameStep (q, .act a) (q, a)
  | read {q : Peer} {s : Sid} {n : Nat} {a : SessionAct} (reads : a.input ≠ []) :
      SameStep (q, .read s n) (q, .session s a)

theorem Carries.unique (h : Carries md5 b w) (h' : Carries md5 b' w) : b = b' := by
  obtain ⟨proc, stream⟩ := b
  obtain ⟨proc', stream'⟩ := b'
  have hproc : proc = proc' := h.proc.trans h'.proc.symm
  have hstream : stream = stream' := funext fun s =>
    (h.stream s).trans (h'.stream s).symm
  rw [hproc, hstream]

theorem carries_start : Carries md5 (byteStart cfg) (start cfg) := ⟨rfl, fun _ => rfl⟩

variable [DecidableEq Peer]

theorem Carries.follow (h : Carries md5 b w) {left : Sid → List UInt8}
    (hleft : ∀ s, left s =
      ((w.wire s).drop (a.inputAt s).length).flatMap (Msg.writeTo md5))
    (hstep : net.step w (q, a) = some w') :
    ∃ b', net.advance md5 b q a left = some b' ∧ Carries md5 b' w' := by
  obtain ⟨-, p, hp, rfl⟩ := step_eq_some.mp hstep
  rw [← h.proc] at hp
  refine ⟨_, advance_eq_some.mpr ⟨p, hp, rfl⟩, ?_, fun s => ?_⟩
  · rw [h.proc]
  · simp only [hleft, h.proc, List.flatMap_append]

theorem Carries.follow_silent (h : Carries md5 b w)
    (hsilent : net.admitsSilent q a = true) (hinput : ∀ s, a.inputAt s = [])
    (hstep : net.step w (q, a) = some w') :
    ∃ b', net.byteStep md5 b (q, .act a) = some b' ∧ Carries md5 b' w' := by
  have hleft : ∀ s, b.stream s =
      ((w.wire s).drop (a.inputAt s).length).flatMap (Msg.writeTo md5) := by
    intro s
    rw [hinput s, h.stream]
    rfl
  obtain ⟨b', hadv, hR⟩ := h.follow hleft hstep
  refine ⟨b', ?_, hR⟩
  simp only [byteStep, hsilent, if_true]
  exact hadv

theorem Carries.follow_read (h : Carries md5 b w) (hc : Deployed F size cfg)
    (hlink : Linked net cfg w) (hint : ∀ q, Intact F (cfg q) (w.proc q))
    {x : SessionAct} (hne : x.input ≠ [])
    (hstep : net.step w (q, .session s x) = some w') :
    ∃ n b', net.byteStep md5 b (q, .read s n) = some b' ∧ Carries md5 b' w' := by
  obtain ⟨hadm, p, hp, -⟩ := step_eq_some.mp hstep
  simp only [admits, Bool.and_eq_true, decide_eq_true_eq] at hadm
  obtain ⟨⟨howner, hprefix⟩, -⟩ := hadm
  subst howner
  have hen := (Proc.session_step hp).1
  cases hwire : w.wire s with
  | nil =>
      rw [hwire] at hprefix
      exact absurd (List.prefix_nil.mp hprefix) hne
  | cons m l =>
      obtain ⟨y, hy, -, hreads⟩ := next_read hc hlink hint
        (Proc.step_cases hp).1 hwire (reading_of_enabled (.inl hne) hen)
      have hread : reader md5 ((w.proc (net.owner s)).sess s) (m.writeTo md5) =
          .done y [] := by
        rw [← List.append_nil (m.writeTo md5)]
        exact hreads []
      obtain rfl : y = x := eq_of_reader (Proc.phased_reachable (hlink.procs _) s)
        hread hen (hy.trans (input_of_head hne (hwire ▸ hprefix)).symm) hne
      have hstream := h.stream s
      rw [hwire, List.flatMap_cons] at hstream
      have hleft : ∀ t, Function.update b.stream s
          ([] ++ (b.stream s).drop (m.writeTo md5).length) t =
            ((w.wire t).drop (Act.inputAt (.session s y) t).length).flatMap
              (Msg.writeTo md5) := by
        intro t
        by_cases hts : t = s
        · subst t
          rw [Function.update_self, Act.inputAt, if_pos rfl, hy, hwire, hstream]
          simp
        · rw [Function.update_of_ne hts, Act.inputAt, if_neg hts, h.stream]
          rfl
      obtain ⟨b', hadv, hR⟩ := h.follow hleft hstep
      -- all bytes of the message have arrived, and none of the next
      refine ⟨(m.writeTo md5).length, b', ?_, hR⟩
      have htake : (b.stream s).take (m.writeTo md5).length = m.writeTo md5 := by
        rw [hstream]
        simp
      simp only [byteStep, if_true, htake, h.proc, hread]
      exact hadv

theorem bytes_bisimulate (hc : Deployed F size cfg) :
    Bisimulates (net.byteStep md5) net.step (net.Reachable cfg) (Carries md5)
      SameStep where
  keeps hr hstep := .tail hr trivial hstep
  up := by
    rintro b w ⟨q, l⟩ b' hr hR hstep
    cases l with
    | act a =>
        obtain ⟨w', hnext, hR'⟩ := hR.act hstep
        exact ⟨_, w', .act, hnext, hR'⟩
    | read s n =>
        obtain ⟨a, w', hne, hnext, hR'⟩ := hR.read hc (linked_reachable hr)
          (intact_reachable hc.toCommon hr) hstep
        exact ⟨_, w', .read hne, hnext, hR'⟩
  down := by
    rintro b w ⟨q, a⟩ w' hr hR hstep
    by_cases hread : ∃ s x, a = .session s x ∧ x.input ≠ []
    · obtain ⟨s, x, rfl, hne⟩ := hread
      obtain ⟨n, b', hnext, hR'⟩ := hR.follow_read hc (linked_reachable hr)
        (intact_reachable hc.toCommon hr) hne hstep
      exact ⟨_, b', .read hne, hnext, hR'⟩
    · have hsilent : net.admitsSilent q a = true ∧ ∀ s, a.inputAt s = [] := by
        have hadm := (step_eq_some.mp hstep).1
        cases a with
        | session s x =>
            have hinput : x.input = [] := by
              by_contra hne
              exact hread ⟨s, x, rfl, hne⟩
            simp only [admits, Bool.and_eq_true] at hadm
            simp [admitsSilent, hadm, hinput, Act.inputAt]
        | _ => exact ⟨rfl, fun _ => rfl⟩
      obtain ⟨b', hnext, hR'⟩ := hR.follow_silent hsilent.1 hsilent.2 hstep
      exact ⟨_, b', .act, hnext, hR'⟩

theorem bytes_reachable (hc : Deployed F size cfg) (hw : net.Reachable cfg w) :
    ∃ b, net.ByteReachable md5 cfg b ∧ Carries md5 b w :=
  (bytes_bisimulate hc).reachable_down .start carries_start hw

/--
A swarm of a deployment whose links carry bytes, which arrive in pieces of any
size, reaches the states of the swarm whose links carry messages, with the bytes
of the messages on the links, and no others.
-/
theorem bytes_exact (hc : Deployed F size cfg) :
    net.ByteReachable md5 cfg b ↔ ∃ w, net.Reachable cfg w ∧ Carries md5 b w := by
  refine ⟨(bytes_bisimulate hc).reachable_up .start carries_start, ?_⟩
  rintro ⟨w, hw, hR⟩
  obtain ⟨b', hb', hR'⟩ := bytes_reachable hc hw
  rwa [hR.unique hR']

end Net

theorem bytes_exact_downloaded :
    ∃ w, pairNet.Reachable pairCfg w ∧ Net.Carries pairMd5 downloaded w ∧
      (w.proc true).sh.repo.file = [7] := by
  obtain ⟨w, hw, hR⟩ := (Net.bytes_exact pairCfg_deployed).mp downloaded_reachable
  refine ⟨w, hw, hR, ?_⟩
  rw [← hR.proc]
  decide +kernel

end CntPeer
