import Mathlib.Data.Nat.Pairing
import CntPeer.Main.ConfigFile
import CntPeer.Swarm.ByteDownload
import CntPeer.Swarm.Mesh

/-!
# A deployment

Peers that read the same configuration files and are connected each with each
can distribute the file.
-/

namespace CntPeer

open CntPeer.Foundation

/-- Each of `n` processes has a session for each of the others. -/
def fullNet (n : Nat) [NeZero n] : Net (Fin n) where
  owner s := Fin.ofNat n s.unpair.1
  mate s := Nat.pair s.unpair.2 s.unpair.1
  mate_mate s := by simp

def fullMesh (n : Nat) [NeZero n] : (fullNet n).Mesh where
  line q r := Nat.pair q r
  owner_line q r _ := by simp [fullNet]
  mate_line q r _ := by simp [fullNet]

namespace Main

variable {commonCfg peerInfoCfg : Text} {records : List PeerRecord}
  {configs : Fin records.length → Config} {F : List UInt8} {P k : Nat}

/-- Each listed peer reads the files with its own id. -/
structure Deployed (commonCfg peerInfoCfg : Text) (records : List PeerRecord)
    (configs : Fin records.length → Config) : Prop where
  listed : extractAll PeerRecord.extract peerInfoCfg = records
  read : ∀ i, Config.read (records.get i).peerId commonCfg peerInfoCfg = .ok (configs i)

theorem Deployed.peers (h : Deployed commonCfg peerInfoCfg records configs)
    (i : Fin records.length) :
    (configs i).peers.nTotalPeer = records.length ∧
      (configs i).peers.hasFile = decide ((records.get i).hasFile ≠ 0) := by
  have hread := Config.peers_of_read (h.read i)
  rw [h.listed] at hread
  obtain ⟨hnodup, -, -, htotal⟩ := PeerTable.read_eq_ok hread
  obtain ⟨r, hr, hid, hfile, -⟩ := PeerTable.self_of_read hread
  have hsame : r = records.get i :=
    List.inj_on_of_nodup_map hnodup hr (List.get_mem records i) hid
  exact ⟨htotal, hsame ▸ hfile⟩

theorem Deployed.view (h : Deployed commonCfg peerInfoCfg records configs)
    (hS : number (extractAll Common.extractLine commonCfg) .fileSize = some (F.length : Int))
    (hP : number (extractAll Common.extractLine commonCfg) .pieceSize = some (P : Int))
    (hk : number (extractAll Common.extractLine commonCfg)
      .numberOfPreferredNeighbors = some (k : Int)) (i : Fin records.length) :
    ((configs i).view F).fileSize = F.length ∧ ((configs i).view F).pieceSize = P ∧
      ((configs i).view F).numPn = k := by
  obtain ⟨common, peers, hread, -, heq⟩ := Config.read_eq_ok.mp (h.read i)
  have hfollows := Common.follows_read hread
  rw [heq]
  simp only [Config.view]
  rw [hfollows.number .fileSize (x := common.fileSize) rfl fun _ => rfl,
    hfollows.number .pieceSize (x := common.pieceSize) rfl fun _ => rfl,
    hfollows.number .numberOfPreferredNeighbors (x := common.numPn) rfl fun _ => rfl,
    hS, hP, hk]
  simp

/-- Whom a session expects, when `main` has connected as `final` says: the peer
that it connects to, and anyone on the sessions of `startServer`. -/
def expectedFrom (records : List PeerRecord) [NeZero records.length]
    (final : Int → Connecting) (s : Sid) : Int :=
  let net := fullNet records.length
  let peer := (records.get (net.owner (net.mate s))).peerId
  if peer ∈ (final (records.get (net.owner s)).peerId).created.map PeerInfo.peerId then peer
  else epidNoPreference

theorem Deployed.mates [NeZero records.length]
    (h : Deployed commonCfg peerInfoCfg records configs) (final : Int → Connecting)
    (s : Sid) :
    expectedFrom records final s = epidNoPreference ∨ expectedFrom records final s =
      ((configs ((fullNet records.length).owner ((fullNet records.length).mate s))).view
        F).selfPeerId := by
  simp only [expectedFrom]
  split
  · right
    obtain ⟨common, peers, -, -, heq⟩ := Config.read_eq_ok.mp
      (h.read ((fullNet records.length).owner ((fullNet records.length).mate s)))
    rw [heq]
    rfl
  · exact .inl rfl

theorem Deployed.bounded (h : Deployed commonCfg peerInfoCfg records configs)
    (hS : number (extractAll Common.extractLine commonCfg) .fileSize =
      some (F.length : Int)) :
    F.length < 2 ^ 31 ∧ ∀ i, InWord ((configs i).view F).selfPeerId := by
  constructor
  · obtain ⟨value, -, hvalue⟩ := Option.bind_eq_some_iff.mp hS
    have hword := inWord_of_stoi hvalue
    rw [InWord] at hword
    omega
  · intro i
    obtain ⟨common, peers, -, -, heq⟩ := Config.read_eq_ok.mp (h.read i)
    have hid : ((configs i).view F).selfPeerId = (records.get i).peerId := by
      rw [heq]
      rfl
    rw [hid]
    refine PeerRecord.inWord_of_mem (l := peerInfoCfg) ?_
    rw [h.listed]
    exact List.get_mem records i

/--
From the texts of the configuration files to the end: if the listed peers all
read them, the sizes are those of the file, a piece is not larger than a cache may
be, and one of the peers has the file and a preferred slot for each of the others,
then the peers, connected each with each by links that carry bytes, can run until
every one of them has the file and no session is unfinished, and none has stopped.
Each session expects whom it was created for, whichever connections `main` has
made.
-/
theorem deployment_finishes (h : Deployed commonCfg peerInfoCfg records configs)
    (hS : number (extractAll Common.extractLine commonCfg) .fileSize = some (F.length : Int))
    (hP : number (extractAll Common.extractLine commonCfg) .pieceSize = some (P : Int))
    (hk : number (extractAll Common.extractLine commonCfg)
      .numberOfPreferredNeighbors = some (k : Int))
    (hpos : 0 < P) (hfit : min P F.length ≤ pieceCacheSize)
    (hroom : records.length ≤ k + 1) {q : Fin records.length}
    (hseed : (records.get q).hasFile ≠ 0) (md5 : List UInt8 → Digest)
    (final : Int → Connecting) :
    haveI : NeZero records.length := ⟨q.pos.ne'⟩
    ∃ x, (fullNet records.length).ByteCountedReachable md5 pieceCacheSize
        (fun i => (configs i).view F) x ∧
      x.1.Running ∧
      (∀ s, ((x.1.proc ((fullNet records.length).owner s)).sess s).pc ≠ .absent →
        ((x.1.proc ((fullNet records.length).owner s)).sess s).expectedPeerId =
          expectedFrom records final s) ∧
      ∀ i, (x.1.proc i).sh.repo.file = F ∧
        (x.1.proc i).sh.sc.nUnfinishedSession = 0 := by
  have : NeZero records.length := ⟨q.pos.ne'⟩
  have hview := h.view hS hP hk
  have hbounded := h.bounded hS
  have hc : CntPeer.Deployed F P fun i => (configs i).view F :=
    { shares := fun i =>
        ⟨hpos.trans_eq (hview i).2.1.symm, (hview i).1, fun _ => rfl⟩
      pieceSize := fun i => (hview i).2.1
      fileSize := hbounded.1
      selfPeerId := hbounded.2 }
  have hcount : ∀ i, ((configs i).view F).totalPeerCount =
      Fintype.card (Fin records.length) := by
    intro i
    rw [Fintype.card_fin]
    exact (h.peers i).1
  have hfile : ((configs q).view F).hasFile = true :=
    (h.peers q).2.trans (decide_eq_true hseed)
  have hslots : Fintype.card (Fin records.length) ≤ ((configs q).view F).numPn + 1 := by
    rwa [Fintype.card_fin, (hview q).2.2]
  obtain ⟨y, hy, hw, hexpects, hend⟩ :=
    (fullMesh records.length).rests hc.toCommon hcount (h.mates final) hfile hslots hfit
  have hcounted : (fullNet records.length).CountedReachable pieceCacheSize
      (fun i => (configs i).view F) y :=
    Meter.reachable_mono (fun _ _ _ hstep => (checkedStep_eq_some.mp hstep).2) hy
  obtain ⟨b, hb, hR⟩ : ∃ b, (fullNet records.length).ByteCountedReachable md5
      pieceCacheSize (fun i => (configs i).view F) (b, y.2) ∧ Net.Carries md5 b y.1 :=
    Net.counted_down hc hcounted hw.running
  refine ⟨(b, y.2), hb, hR.running.mpr hw.running, fun s hs => ?_, fun i => ?_⟩
  · rw [hR.proc] at hs ⊢
    exact (hexpects s).trans (if_neg hs)
  · rw [hR.proc]
    exact (hw.finished hc.toCommon hend i).2

def threeCommon : Text := commonText "FileSize 10\nPieceSize 4\n"

def threeConfig (i : Fin threeRecords.length) : Config where
  selfPeerId := (threeRecords.get i).peerId
  peerDir := Config.peerDirOf (threeRecords.get i).peerId
  common :=
    { numPn := some 2, pnInterval := some 5, optInterval := some 15
      filePath := some
        (joinPath (Config.peerDirOf (threeRecords.get i).peerId) "a.dat".toList)
      fileSize := some 10, pieceSize := some 4 }
  peers := ⟨decide (i.val = 0), (threeRecords.get i).port,
    (threeRecords.take i).map PeerRecord.info, 3⟩

/-- The digests of the pieces of their file, of which the last is shorter. -/
def threeMd5 : List UInt8 → Digest := fun piece =>
  if piece.length = 2 then
    #v[0xd0, 0xef, 0x81, 0x94, 0x2a, 0x79, 0x59, 0x6a, 0xf5, 0x99, 0x02, 0x16, 0xe3,
      0xd1, 0x7b, 0x4e]
  else
    #v[0xdd, 0xa7, 0xee, 0x08, 0xd6, 0x58, 0x9a, 0xcb, 0x45, 0x18, 0x28, 0x28, 0x25,
      0x4c, 0x40, 0xef]

theorem three_deployed : Deployed threeCommon threeText threeRecords threeConfig where
  listed := by decide +kernel
  read := by decide +kernel

theorem deployment_finishes_three :
    haveI : NeZero threeRecords.length := ⟨by decide⟩
    ∃ table final, Connected threeRecords table final ∧
      ∃ x, (fullNet threeRecords.length).ByteCountedReachable threeMd5 pieceCacheSize
          (fun i => (threeConfig i).view (List.replicate 10 7)) x ∧
        x.1.Running ∧
        (∀ s, ((x.1.proc ((fullNet threeRecords.length).owner s)).sess s).pc ≠ .absent →
          ((x.1.proc ((fullNet threeRecords.length).owner s)).sess s).expectedPeerId =
            expectedFrom threeRecords final s) ∧
        ∀ i, (x.1.proc i).sh.repo.file = List.replicate 10 7 ∧
          (x.1.proc i).sh.sc.nUnfinishedSession = 0 := by
  have hids : (ids threeRecords).Nodup := by decide
  have hstop : ∀ q ∈ ids threeRecords, ∃ R, ∀ r, R ≤ r → ∀ i,
      (fun (_ : Int) (_ _ : Nat) => false) q r i = false :=
    fun _ _ => ⟨0, fun _ _ _ => rfl⟩
  obtain ⟨table, final, hconn, -⟩ := exists_connected hids hstop
  have hS : number (extractAll Common.extractLine threeCommon) .fileSize =
      some ((List.replicate 10 (7 : UInt8)).length : Int) := by decide +kernel
  exact ⟨table, final, hconn, deployment_finishes (P := 4) (k := 2) three_deployed hS
    (by decide +kernel) (by decide +kernel) (by decide) (by decide) (by decide)
    (q := ⟨0, by decide⟩) (by decide) threeMd5 final⟩

end Main

end CntPeer
