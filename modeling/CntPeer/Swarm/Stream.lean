import CntPeer.Msg.Frames
import CntPeer.Swarm.Safety

/-!
# A swarm whose links carry bytes

Links deliver bytes, and readers turn them into messages as they arrive.  What
processes with a common configuration write is read back as it was written, so
every run over bytes is a run over messages.
-/

namespace CntPeer

open CntPeer.Foundation CntPeer.Foundation.Reader

structure ByteSwarm (Peer : Type*) where
  proc : Peer → Proc
  stream : Sid → List UInt8

inductive ByteAct where
  /-- a step that reads no message -/
  | act (a : Act)
  | read (s : Sid) (arrived : Nat)

def reader (md5 : List UInt8 → Digest) (x : Session) : ByteReader SessionAct :=
  match x.pc with
  | .recvHandshake => do
      let peerId ← HandshakeMsg.readFrom
      return .recvHandshake peerId
  | .recvBitfield => do
      let m ← ActualMsg.readFrom md5
      return .recvBitfield m
  | _ => do
      let m ← ActualMsg.readFrom md5
      return .scan m

/-- `FileSize` and the peer ids are `int` values. -/
structure Deployed {Peer : Type*} (F : List UInt8) (size : Nat)
    (cfg : Peer → Config) : Prop extends Common F size cfg where
  fileSize : F.length < 2 ^ 31
  selfPeerId : ∀ q, InWord (cfg q).selfPeerId

theorem stable_reader {md5 : List UInt8 → Digest} (x : Session) :
    Stable (reader md5 x) := by
  unfold reader
  split
  · exact HandshakeMsg.stable_readFrom.then_pure _
  · exact ActualMsg.stable_readFrom.then_pure _
  · exact ActualMsg.stable_readFrom.then_pure _

theorem reader_nil {md5 : List UInt8 → Digest} (x : Session) :
    reader md5 x [] = .more := by
  cases hpc : x.pc
  all_goals
    rw [reader, hpc]
    rfl

theorem ofRead_of_reader {md5 : List UInt8 → Digest} {x : Session}
    {l : List UInt8} {h : Halt} (hread : reader md5 x l = .fail h) :
    h.ofRead = true := by
  cases hpc : x.pc with
  | recvHandshake =>
      rw [reader, hpc] at hread
      rcases bind_eq_fail.mp hread with hread | ⟨m, left, -, hread⟩
      · exact HandshakeMsg.ofRead_of_readFrom hread
      · exact absurd hread pure_ne_fail
  | _ =>
      rw [reader, hpc] at hread
      rcases bind_eq_fail.mp hread with hread | ⟨m, left, -, hread⟩
      · exact ActualMsg.ofRead_of_readFrom hread
      · exact absurd hread pure_ne_fail

theorem input_of_reader {md5 : List UInt8 → Digest} {x : Session}
    {l rest : List UInt8} {a : SessionAct}
    (h : reader md5 x l = .done a rest) : a.input ≠ [] := by
  cases hpc : x.pc
  all_goals
    rw [reader, hpc] at h
    obtain ⟨m, rfl⟩ := eq_of_then_pure h
    exact List.cons_ne_nil _ _

theorem reading_of_enabled {p : Proc} {s : Sid} {a : SessionAct}
    (ha : a.input ≠ [] ∨ ∃ h, a = .readFails h)
    (hen : p.sessionEnabled s a = true) :
    (p.sess s).pc = .recvHandshake ∨ (p.sess s).pc = .recvBitfield ∨
      (p.sess s).scanning = true := by
  cases a with
  | recvHandshake id => exact .inl (by simpa [Proc.sessionEnabled] using hen)
  | recvBitfield m =>
      exact .inr (.inl (by simpa [Proc.sessionEnabled] using hen))
  | scan m =>
      simp only [Proc.sessionEnabled, Bool.and_eq_true] at hen
      exact .inr (.inr hen.1)
  | readFails h =>
      simp only [Proc.sessionEnabled, Bool.or_eq_true, Bool.and_eq_true,
        decide_eq_true_eq] at hen
      rcases hen with (hpc | hpc) | ⟨hscan, -⟩
      · exact .inl hpc
      · exact .inr (.inl hpc)
      · exact .inr (.inr hscan)
  | _ => simp [SessionAct.input] at ha

namespace Net

variable {Peer : Type*} (net : Net Peer) (md5 : List UInt8 → Digest)

/-- The step is one of a session of `q` that reads no message, or of `q`
itself. -/
def admitsSilent [DecidableEq Peer] (q : Peer) : Act → Bool
  | .session s a =>
      decide (net.owner s = q) && a.input.isEmpty && a.reliable
  | _ => true

def byteStart (cfg : Peer → Config) : ByteSwarm Peer where
  proc := fun q => Proc.init (cfg q)
  stream := fun _ => []

/-- The links of `b` carry the bytes of the messages on the links of `w`. -/
structure Carries (b : ByteSwarm Peer) (w : Swarm Peer) : Prop where
  proc : b.proc = w.proc
  stream : ∀ s, b.stream s = (w.wire s).flatMap (Msg.writeTo md5)

variable {net md5} {w : Swarm Peer} {s : Sid} {cfg : Peer → Config}
  {F : List UInt8} {size : Nat}

theorem written_fits (hc : Deployed F size cfg) (hlink : Linked net cfg w)
    (hint : ∀ q, Intact F (cfg q) (w.proc q)) {m : Msg}
    (hm : m ∈ (net.sess w s).sent) : m.Fits := by
  have hbound := hc.fileSize
  have hlength : ∀ q, (w.proc q).sh.own.sv.length ≤ F.length := by
    intro q
    rw [(Proc.owning_reachable (hlink.procs q)).length]
    exact (hc.shares q).nPieces_le
  have hindex : ∀ {q} {i : Nat}, (w.proc q).sh.own.sv[i]? = some .owned →
      InWord i := by
    intro q i hi
    have hlt := (List.getElem?_eq_some_iff.mp hi).1
    have hle := hlength q
    exact inWord_natCast (by omega)
  cases m with
  | handshakeMsg id =>
      cases (hlink.opening s).handshake hm
      exact hc.selfPeerId _
  | actual m =>
      cases m with
      | haveMsg j =>
          obtain ⟨i, rfl, hi⟩ :=
            (Proc.truthful_reachable (hlink.procs _) _).written j hm
          exact hindex hi
      | bitfieldMsg sv =>
          have hsv := Proc.bitfield_length (hlink.procs _) hm
          have hle := hlength (net.owner s)
          change sv.length < 2 ^ 31
          omega
      | requestMsg j =>
          obtain ⟨i, rfl, hi⟩ :=
            (Proc.asked_reachable (hlink.procs _) _).written j hm
          exact hindex (hlink.view hi)
      | pieceMsg j d =>
          obtain ⟨i, rfl, hlt, rfl⟩ := ((hint _).delivers s).written j d hm
          have hle := Nat.le_mul_of_pos_right i (hc.shares (net.owner s)).pieceSize
          refine ⟨inWord_natCast (by omega), ?_⟩
          rw [length_chunk]
          omega
      | _ => trivial

theorem next_read (hc : Deployed F size cfg) (hlink : Linked net cfg w)
    (hint : ∀ q, Intact F (cfg q) (w.proc q))
    (hrun : (w.proc (net.owner s)).sh.halt = none) {m : Msg} {l : List Msg}
    (hwire : w.wire s = m :: l)
    (hreads : (net.sess w s).pc = .recvHandshake ∨
      (net.sess w s).pc = .recvBitfield ∨ (net.sess w s).scanning = true) :
    ∃ a : SessionAct, a.input = [m] ∧ a.reliable = true ∧
      Reads (reader md5 (net.sess w s)) (m.writeTo md5) a := by
  have hfifo := hlink.fifo s
  have hopen := hlink.opening (net.mate s)
  have hrecv : Received (net.sess w s) :=
    Proc.received_reachable (hlink.procs _) hrun s
  have hph : Phased (net.sess w s) := Proc.phased_reachable (hlink.procs _) s
  have hfits : m.Fits := written_fits hc hlink hint (s := net.mate s) (by
    rw [hfifo, hwire]
    simp)
  rw [hwire] at hfifo
  rcases hreads with hpc | hpc | hscan
  · rw [hrecv.silent (by rw [hpc]; decide), List.nil_append] at hfifo
    cases hopen.first hfifo
    refine ⟨.recvHandshake _, rfl, rfl, ?_⟩
    rw [reader, hpc]
    exact (HandshakeMsg.reads_readFrom hfits).then_pure _
  · obtain ⟨id, hinbox⟩ := hrecv.greeted (by rw [hpc]; rfl)
    rw [hinbox] at hfifo
    obtain ⟨⟨sv, rfl⟩, -⟩ := hopen.continues hfifo
    refine ⟨.recvBitfield _, rfl, rfl, ?_⟩
    rw [reader, hpc]
    exact (ActualMsg.reads_readFrom (m := .bitfieldMsg sv) hfits).then_pure _
  · have hhigh := hph.scanning.mp hscan
    obtain ⟨id, sv, rest, hinbox, -⟩ := hrecv.opened (by omega)
    rw [hinbox] at hfifo
    have hm := (hopen.continues hfifo).2 m (by simp)
    cases m with
    | handshakeMsg id => cases hm
    | actual m =>
        refine ⟨.scan m, rfl, rfl, ?_⟩
        have hne : (net.sess w s).pc ≠ .recvHandshake ∧
            (net.sess w s).pc ≠ .recvBitfield := by
          constructor
          all_goals
            intro hpc
            rw [hpc] at hhigh
            exact absurd hhigh (by decide)
        unfold reader
        split
        · exact absurd ‹_› hne.1
        · exact absurd ‹_› hne.2
        · exact (ActualMsg.reads_readFrom (m := m) hfits).then_pure _

variable [DecidableEq Peer] (net md5)

def advance (b : ByteSwarm Peer) (q : Peer) (a : Act)
    (left : Sid → List UInt8) : Option (ByteSwarm Peer) :=
  ((b.proc q).step a).map fun p =>
    { proc := Function.update b.proc q p
      stream := fun s => left s ++
        ((b.proc q).outputAt a (net.mate s)).flatMap (Msg.writeTo md5) }

def byteStep (b : ByteSwarm Peer) (l : Peer × ByteAct) :
    Option (ByteSwarm Peer) :=
  match l.2 with
  | .act a =>
      if net.admitsSilent l.1 a then net.advance md5 b l.1 a b.stream else none
  | .read s arrived =>
      if net.owner s = l.1 then
        match reader md5 ((b.proc l.1).sess s) ((b.stream s).take arrived) with
        | .more => none
        | .done a rest =>
            net.advance md5 b l.1 (.session s a)
              (Function.update b.stream s (rest ++ (b.stream s).drop arrived))
        | .fail h => net.advance md5 b l.1 (.session s (.readFails h)) b.stream
      else none

abbrev ByteReachable (cfg : Peer → Config) (b : ByteSwarm Peer) : Prop :=
  Foundation.Reachable (net.byteStep md5) (byteStart cfg) b

variable {net md5} {b b' : ByteSwarm Peer} {q : Peer} {a : Act}

theorem advance_eq_some {left : Sid → List UInt8} :
    net.advance md5 b q a left = some b' ↔ ∃ p, (b.proc q).step a = some p ∧
      b' = { proc := Function.update b.proc q p
             stream := fun s => left s ++
               ((b.proc q).outputAt a (net.mate s)).flatMap
                 (Msg.writeTo md5) } := by
  rw [Net.advance, Option.map_eq_some_iff]
  constructor
  · rintro ⟨p, hp, rfl⟩
    exact ⟨p, hp, rfl⟩
  · rintro ⟨p, hp, rfl⟩
    exact ⟨p, hp, rfl⟩

theorem Carries.advance (h : Carries md5 b w)
    (hadm : net.admits w q a = true) {left : Sid → List UInt8}
    (hleft : ∀ s, left s =
      ((w.wire s).drop (a.inputAt s).length).flatMap (Msg.writeTo md5))
    (hstep : net.advance md5 b q a left = some b') :
    ∃ w', net.step w (q, a) = some w' ∧ Carries md5 b' w' := by
  obtain ⟨p, hp, rfl⟩ := advance_eq_some.mp hstep
  rw [h.proc] at hp ⊢
  refine ⟨_, step_eq_some.mpr ⟨hadm, p, hp, rfl⟩, rfl, fun s => ?_⟩
  simp only [hleft, List.flatMap_append]

theorem Carries.act (h : Carries md5 b w)
    (hstep : net.byteStep md5 b (q, .act a) = some b') :
    ∃ w', net.step w (q, a) = some w' ∧ Carries md5 b' w' := by
  simp only [byteStep] at hstep
  split at hstep
  · rename_i hadm
    have hinput : ∀ s, a.inputAt s = [] := by
      intro s
      cases a with
      | session u act =>
          simp only [admitsSilent, Bool.and_eq_true, List.isEmpty_iff] at hadm
          simp [Act.inputAt, hadm.1.2]
      | _ => rfl
    refine h.advance ?_ (fun s => ?_) hstep
    · cases a with
      | session u act =>
          simp only [admitsSilent, Bool.and_eq_true, List.isEmpty_iff] at hadm
          simp [admits, hadm]
      | _ => rfl
    · rw [hinput, h.stream]
      rfl
  · contradiction

theorem Carries.read (h : Carries md5 b w) (hc : Deployed F size cfg)
    (hlink : Linked net cfg w) (hint : ∀ q, Intact F (cfg q) (w.proc q))
    {arrived : Nat}
    (hstep : net.byteStep md5 b (q, .read s arrived) = some b') :
    ∃ a w', a.input ≠ [] ∧ net.step w (q, .session s a) = some w' ∧
      Carries md5 b' w' := by
  simp only [byteStep] at hstep
  split at hstep
  · rename_i howner
    subst q
    have hnext : ∀ {a b'' left}, net.advance md5 b (net.owner s)
        (.session s a) left = some b'' →
        (a.input ≠ [] ∨ ∃ h, a = .readFails h) →
        (b.stream s).take arrived ≠ [] →
        ∃ m l act, w.wire s = m :: l ∧ act.input = [m] ∧
          act.reliable = true ∧
          Reads (reader md5 ((b.proc (net.owner s)).sess s))
            (m.writeTo md5) act := by
      intro a b'' left hadv ha hne
      obtain ⟨p, hp, -⟩ := advance_eq_some.mp hadv
      rw [h.proc] at hp ⊢
      have hreads := reading_of_enabled ha (Proc.session_step hp).1
      cases hwire : w.wire s with
      | nil =>
          rw [h.stream, hwire] at hne
          simp at hne
      | cons m l =>
          obtain ⟨act, hact⟩ := next_read hc hlink hint
            (Proc.step_cases hp).1 hwire hreads
          exact ⟨m, l, act, rfl, hact⟩
    split at hstep
    · contradiction
    · rename_i a rest hread
      have hne : (b.stream s).take arrived ≠ [] := by
        intro hnil
        rw [hnil, reader_nil] at hread
        cases hread
      obtain ⟨m, l, act, hwire, hinput, hrel, hreads⟩ :=
        hnext hstep (.inl (input_of_reader hread)) hne
      have hstream := h.stream s
      rw [hwire, List.flatMap_cons] at hstream
      rw [hstream] at hread
      obtain ⟨rfl, hrest⟩ := (stable_reader _).eq_of_reads hreads hread
      have hadm : net.admits w (net.owner s) (.session s a) = true := by
        simp [admits, hinput, hwire, hrel]
      have hleft : ∀ t, Function.update b.stream s
          (rest ++ (b.stream s).drop arrived) t =
            ((w.wire t).drop (Act.inputAt (.session s a) t).length).flatMap
              (Msg.writeTo md5) := by
        intro t
        by_cases hts : t = s
        · subst t
          rw [Function.update_self, Act.inputAt, if_pos rfl, hinput, hwire,
            hstream, hrest]
          rfl
        · rw [Function.update_of_ne hts, Act.inputAt, if_neg hts, h.stream]
          rfl
      obtain ⟨w', hmatched⟩ := h.advance hadm hleft hstep
      exact ⟨a, w', input_of_reader hread, hmatched⟩
    · rename_i hl hread
      have hne : (b.stream s).take arrived ≠ [] := by
        intro hnil
        rw [hnil, reader_nil] at hread
        cases hread
      obtain ⟨m, l, act, hwire, -, -, hreads⟩ :=
        hnext hstep (.inr ⟨_, rfl⟩) hne
      rw [h.stream, hwire, List.flatMap_cons] at hread
      exact absurd hread ((stable_reader _).ne_fail_of_reads hreads _)
  · contradiction

theorem carries_reachable (hc : Deployed F size cfg)
    (h : net.ByteReachable md5 cfg b) :
    ∃ w, net.Reachable cfg w ∧ Carries md5 b w := by
  refine h.simulates ⟨rfl, fun _ => rfl⟩ ?_
  rintro b ⟨q, l⟩ b' w hw hR - hstep
  cases l with
  | act a =>
      obtain ⟨w', hstep', hR'⟩ := hR.act hstep
      exact .inr ⟨_, w', trivial, hstep', hR'⟩
  | read s arrived =>
      obtain ⟨a, w', -, hstep', hR'⟩ := hR.read hc (linked_reachable hw)
        (intact_reachable hc.toCommon hw) hstep
      exact .inr ⟨_, w', trivial, hstep', hR'⟩

/--
Whatever a process of a deployment keeps or hands on is right: an owned piece is
in its file, a piece that `get` has returned is the one of the shared file, and
a process that owns all pieces has the file.
-/
theorem swarm_integrity (hc : Deployed F size cfg)
    (h : net.ByteReachable md5 cfg b) (q : Peer) :
    (∀ i : Nat, (b.proc q).sh.own.sv[i]? = some .owned →
      ∀ k, i * size ≤ k → k < min ((i + 1) * size) F.length →
        (b.proc q).sh.repo.file[k]? = F[k]?) ∧
    (∀ s i d, ((b.proc q).sess s).pc = .sendPiece i d →
      d = chunk F size i) ∧
    ((b.proc q).sh.own.owningAll = true → (b.proc q).sh.own.setting = none →
      (b.proc q).sh.repo.file = F) := by
  obtain ⟨w, hw, hR⟩ := carries_reachable hc h
  rw [hR.proc]
  refine ⟨fun i hi k hlow hhigh => owned_bytes hc.toCommon hw hi hlow hhigh,
    fun s i d hpc => ?_, whole_file hc.toCommon hw⟩
  have hl := (intact_reachable hc.toCommon hw q).locals s
  simp only [PieceLocal, hpc] at hl
  obtain ⟨i', hii, -, rfl⟩ := hl
  cases Int.natCast_inj.mp hii
  rw [hc.pieceSize]

/--
No process of a deployment stops with a panic that blames its peer, and no
session believes that its peer owns a piece which the peer does not own.
-/
theorem honest_swarm (hc : Deployed F size cfg)
    (h : net.ByteReachable md5 cfg b) :
    (∀ q r, (b.proc q).sh.halt = some (.panic r) → r.violation = false) ∧
    ∀ s (i : Nat),
      ((b.proc (net.owner s)).sess s).peerSv[i]? = some .owned →
      (b.proc (net.owner (net.mate s))).sh.own.sv[i]? = some .owned := by
  obtain ⟨w, hw, hR⟩ := carries_reachable hc h
  rw [hR.proc]
  exact ⟨no_violation hc.toCommon hw,
    fun s i => (linked_reachable hw).view (s := s)⟩

end Net

def pairMd5 : List UInt8 → Digest := fun _ =>
  #v[0x89, 0xe7, 0x4e, 0x64, 0x0b, 0x8c, 0x46, 0x25, 0x7a, 0x29, 0xde, 0x06,
    0x16, 0x79, 0x4d, 0x5d]

def onBytes (s : Sid) (arrived : Nat) : Bool × ByteAct :=
  (pairNet.owner s, .read s arrived)

def silently (l : Bool × Act) : Bool × ByteAct := (l.1, .act l.2)

def pairDownload : List (Bool × ByteAct) :=
  (onSess 0 (.create 0 epidNoPreference) :: onThread 0 3 ++
    onSess 1 (.create 0 epidNoPreference) :: onThread 1 3).map silently ++
    [onBytes 0 32, onBytes 0 6, onBytes 1 40, onBytes 1 6] ++
    (onThread 0 2 ++ onThread 1 2).map silently ++
    onBytes 0 5 :: (onThread 0 5).map silently ++
    onBytes 1 5 :: (onThread 1 2).map silently ++
    onBytes 1 5 :: (onThread 1 5).map silently ++
    onBytes 0 5 :: (onThread 0 2).map silently ++
    onBytes 0 9 :: (onThread 0 6).map silently ++
    onBytes 1 26 :: (onThread 1 8).map silently

def downloaded : ByteSwarm Bool :=
  (run (pairNet.byteStep pairMd5) (Net.byteStart pairCfg) pairDownload).get
    (by decide +kernel)

theorem pairCfg_deployed : Deployed [7] 1 pairCfg where
  shares q := by
    cases q
    · exact ⟨by decide, rfl, fun _ => rfl⟩
    · exact ⟨by decide, rfl, nofun⟩
  pieceSize q := by cases q <;> rfl
  fileSize := by decide
  selfPeerId q := by
    cases q
    all_goals exact inWord_natCast (n := 1) (by decide)

theorem downloaded_reachable :
    pairNet.ByteReachable pairMd5 pairCfg downloaded :=
  reachable_get _

theorem swarm_integrity_downloaded :
    (downloaded.proc true).sh.own.owningAll = true ∧
      (downloaded.proc true).sh.repo.file = [7] :=
  ⟨by decide +kernel,
    (Net.swarm_integrity pairCfg_deployed downloaded_reachable true).2.2
      (by decide +kernel) (by decide +kernel)⟩

theorem honest_swarm_downloaded :
    ((downloaded.proc true).sess 1).peerSv[0]? = some .owned ∧
      (downloaded.proc false).sh.own.sv[0]? = some .owned :=
  ⟨by decide +kernel,
    (Net.honest_swarm pairCfg_deployed downloaded_reachable).2 1 0
      (by decide +kernel)⟩

end CntPeer
