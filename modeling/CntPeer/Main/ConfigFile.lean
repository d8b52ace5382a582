import CntPeer.Foundation.Layout
import CntPeer.Main.Mesh

/-!
# Configuration files

Which files the constructor of `Config` takes, and what it reads from them,
whatever the white space and the order of the keys.
-/

namespace CntPeer.Main

open CntPeer.Foundation

inductive PeerRecord.Spelled : PeerRecord → List Text → Prop
  | mk {peerId port hasFile : Int} {fqdn a c d : Text} (spellsId : Spells a peerId)
      (spellsPort : Spells c port) (spellsFile : Spells d hasFile) :
      Spelled ⟨peerId, fqdn, port, hasFile⟩ [a, fqdn, c, d]

theorem Common.extractAll_written {lines : List (Text × Text)} {l : Text}
    (h : Layout (lines.flatMap fun line => [line.1, line.2]) l) :
    extractAll Common.extractLine l = lines := by
  induction lines generalizing l with
  | nil =>
      have hnone : Common.extractLine l = none := by
        simp [Common.extractLine, h.no_word]
      rw [Common.extractAll_line, hnone]
  | cons line lines ih =>
      rw [List.flatMap_cons, List.cons_append, List.singleton_append] at h
      obtain ⟨l₁, hkey, h₁⟩ := h.takes_word
      obtain ⟨l₂, hvalue, h₂⟩ := h₁.takes_word
      have hline : Common.extractLine l = some (line, l₂) := by
        simp [Common.extractLine, hkey, hvalue]
      rw [Common.extractAll_line, hline]
      simp only [ih h₂]

theorem PeerRecord.extractAll_written {records : List PeerRecord}
    {words : List (List Text)} {l : Text}
    (hspelled : List.Forall₂ PeerRecord.Spelled records words)
    (h : Layout words.flatten l) : extractAll PeerRecord.extract l = records := by
  induction hspelled generalizing l with
  | nil =>
      have hnone : PeerRecord.extract l = none := by
        simp [PeerRecord.extract, h.no_int]
      rw [PeerRecord.extractAll_record, hnone]
  | cons hr _ ih =>
      cases hr with
      | @mk peerId port hasFile fqdn a c d hid hport hfile =>
          obtain ⟨l₁, hid, h₁⟩ := h.takes_int hid
          obtain ⟨l₂, hfqdn, h₂⟩ := h₁.takes_word
          obtain ⟨l₃, hport, h₃⟩ := h₂.takes_int hport
          obtain ⟨l₄, hfile, h₄⟩ := h₃.takes_int hfile
          have hrecord : PeerRecord.extract l = 
              some (⟨peerId, fqdn, port, hasFile⟩, l₄) := by
            simp [PeerRecord.extract, hid, hfqdn, hport, hfile]
          rw [PeerRecord.extractAll_record, hrecord]
          simp only [ih h₄]

theorem PeerRecord.inWord_of_mem {r : PeerRecord} {l : Text}
    (h : r ∈ extractAll PeerRecord.extract l) : InWord r.peerId := by
  obtain ⟨l', rest, hr⟩ := mem_extractUpTo h
  obtain ⟨⟨peerId, l₁⟩, hid, hr⟩ := Option.bind_eq_some_iff.mp hr
  obtain ⟨⟨fqdn, l₂⟩, -, hr⟩ := Option.bind_eq_some_iff.mp hr
  obtain ⟨⟨port, l₃⟩, -, hr⟩ := Option.bind_eq_some_iff.mp hr
  obtain ⟨⟨hasFile, l₄⟩, -, hr⟩ := Option.bind_eq_some_iff.mp hr
  cases hr
  exact inWord_of_extractInt hid

namespace Common

variable {peerDir : Text} {c c' : Common} {lines : List (Text × Text)}

def readable (peerDir : Text) (line : Text × Text) : Bool :=
  ((CommonKey.ofText? line.1).bind fun key => key.parse peerDir line.2).isSome

theorem isSome_assign (peerDir : Text) (c : Common) (key : CommonKey) (value : Text) :
    (c.assign peerDir key value).isSome = (key.parse peerDir value).isSome := by
  cases key <;> simp [assign, CommonKey.parse]

theorem readLine_iff (line : Text × Text) :
    (∃ c', readLine peerDir c line = .ok c') ↔ readable peerDir line = true := by
  unfold readLine readable
  cases hkey : CommonKey.ofText? line.1 with
  | none => simp
  | some key =>
      have hassign := isSome_assign peerDir c key line.2
      cases hc : c.assign peerDir key line.2 with
      | none => simp_all
      | some c' => simp_all

theorem exists_read_iff :
    (∃ c, read peerDir lines = .ok c) ↔ ∀ line ∈ lines, readable peerDir line = true := by
  suffices h : ∀ c : Common, (∃ c', lines.foldlM (readLine peerDir) c = .ok c') ↔
      ∀ line ∈ lines, readable peerDir line = true from h {}
  induction lines with
  | nil => exact fun c => ⟨fun _ => nofun, fun _ => ⟨c, rfl⟩⟩
  | cons line lines ih =>
      intro c
      simp only [List.foldlM_cons, bind_eq_ok, List.forall_mem_cons,
        ← readLine_iff (c := c) line]
      constructor
      · rintro ⟨c', c₁, hline, hrest⟩
        exact ⟨⟨c₁, hline⟩, (ih c₁).mp ⟨c', hrest⟩⟩
      · rintro ⟨⟨c₁, hline⟩, hall⟩
        obtain ⟨c', hrest⟩ := (ih c₁).mpr hall
        exact ⟨c', c₁, hline, hrest⟩

end Common

namespace PeerTable

variable {selfPeerId : Int} {records : List PeerRecord} {table : PeerTable}

theorem exists_read_iff :
    (∃ table, read selfPeerId records = .ok table) ↔
      (ids records).Nodup ∧ selfPeerId ∈ ids records := by
  refine ⟨fun ⟨table, htable⟩ => ?_, fun ⟨hnodup, hself⟩ => exists_read hnodup hself⟩
  have hok := read_eq_ok htable
  exact ⟨hok.1, hok.2.1⟩

theorem self_of_read (h : read selfPeerId records = .ok table) :
    ∃ r ∈ records, r.peerId = selfPeerId ∧ table.hasFile = decide (r.hasFile ≠ 0) ∧
      table.selfPort = r.port := by
  obtain ⟨x, hspec, hself, -, -⟩ := read_spec h
  rw [hspec.self] at hself
  obtain ⟨own, hown, heq⟩ := Option.map_eq_some_iff.mp hself
  obtain ⟨hfile, hport⟩ := Prod.mk.inj heq
  exact ⟨own, List.mem_of_find?_eq_some hown, by simpa using List.find?_some hown,
    hfile.symm, hport.symm⟩

end PeerTable

variable {q : Int} {commonCfg peerInfoCfg : Text} {lines : List (Text × Text)}
  {records : List PeerRecord} {words : List (List Text)}

theorem Config.read_eq_ok {config : Config} :
    Config.read q commonCfg peerInfoCfg = .ok config ↔
      ∃ common peers, Common.read (peerDirOf q)
          (extractAll Common.extractLine commonCfg) = .ok common ∧
        PeerTable.read q (extractAll PeerRecord.extract peerInfoCfg) =
          .ok peers ∧
        config = ⟨q, peerDirOf q, common, peers⟩ := by
  simp only [Config.read, bind_eq_ok]
  constructor
  · rintro ⟨common, hcommon, peers, hpeers, heq⟩
    cases heq
    exact ⟨common, peers, hcommon, hpeers, rfl⟩
  · rintro ⟨common, peers, hcommon, hpeers, rfl⟩
    exact ⟨common, hcommon, peers, hpeers, rfl⟩

/--
Files that lay out lines and records are accepted exactly when each line has a
known key and a value of its kind, and the records name each id once and self
among them.  The configuration is then what the files say: of each key the last
line, and the records up to the one of self.
-/
theorem written_files_read
    (hcommon : Layout (lines.flatMap fun line => [line.1, line.2]) commonCfg)
    (hspelled : List.Forall₂ PeerRecord.Spelled records words)
    (hpeers : Layout words.flatten peerInfoCfg) :
    ((∃ config, Config.read q commonCfg peerInfoCfg = .ok config) ↔
      (∀ line ∈ lines, Common.readable (Config.peerDirOf q) line = true) ∧
        (ids records).Nodup ∧ q ∈ ids records) ∧
    ∀ config, Config.read q commonCfg peerInfoCfg = .ok config →
      (∀ key, config.common.member key =
        (setting lines key).bind (key.parse (Config.peerDirOf q))) ∧
      (∃ r ∈ records, r.peerId = q ∧
        config.peers.hasFile = decide (r.hasFile ≠ 0) ∧
        config.peers.selfPort = r.port) ∧
      config.peers.priorPeers =
        (records.takeWhile fun r => r.peerId ≠ q).map PeerRecord.info ∧
      config.peers.nTotalPeer = records.length := by
  have hlines := Common.extractAll_written hcommon
  have hrecords := PeerRecord.extractAll_written hspelled hpeers
  constructor
  · rw [← Common.exists_read_iff, ← PeerTable.exists_read_iff]
    simp only [Config.read_eq_ok, hlines, hrecords]
    constructor
    · rintro ⟨config, common, peers, hread, htable, -⟩
      exact ⟨⟨common, hread⟩, peers, htable⟩
    · rintro ⟨⟨common, hread⟩, peers, htable⟩
      exact ⟨_, common, peers, hread, htable, rfl⟩
  · intro config hconfig
    obtain ⟨common, peers, hread, htable, rfl⟩ := Config.read_eq_ok.mp hconfig
    rw [hlines] at hread
    rw [hrecords] at htable
    have htable' := PeerTable.read_eq_ok htable
    exact ⟨(Common.follows_read hread).member, PeerTable.self_of_read htable,
      htable'.2.2.1, htable'.2.2.2⟩

def looseText : Text :=
  "  FileSize 9 FileSize\t10\nPieceSize  4".toList

def looseLines : List (Text × Text) :=
  [("FileSize".toList, "9".toList), ("FileSize".toList, "10".toList),
    ("PieceSize".toList, "4".toList)]

def threeWords : List (List Text) :=
  [["1001".toList, ['a'], "6001".toList, ['1']],
    ["1002".toList, ['b'], "6002".toList, ['0']],
    ["1003".toList, ['c'], "6003".toList, ['0']]]

theorem threeRecords_spelled :
    List.Forall₂ PeerRecord.Spelled threeRecords threeWords := by
  unfold threeRecords threeWords
  repeat' first
    | exact List.Forall₂.nil
    | refine List.Forall₂.cons (.mk ?_ ?_ ?_) ?_
    | exact ⟨by decide, by decide⟩

theorem written_files_read_loose :
    ∃ config, Config.read 1002 looseText threeText = .ok config ∧
      config.common.member .fileSize = some (.inl 10) ∧
      config.peers.priorPeers = [⟨1001, 6001, ['a']⟩] := by
  have hcommon : Layout (looseLines.flatMap fun line => [line.1, line.2]) looseText := by
    have hwords := layout_words looseText
    rwa [show extractAll extractWord looseText =
      looseLines.flatMap fun line => [line.1, line.2] by decide] at hwords
  have hpeers : Layout threeWords.flatten threeText := by
    have hwords := layout_words threeText
    rwa [show extractAll extractWord threeText = threeWords.flatten by decide] at hwords
  obtain ⟨hiff, hread⟩ := written_files_read (q := 1002) hcommon
    threeRecords_spelled hpeers
  obtain ⟨config, hconfig⟩ := hiff.mpr (by decide)
  obtain ⟨hmember, -, hprior, -⟩ := hread config hconfig
  exact ⟨config, hconfig, (hmember .fileSize).trans (by decide), hprior.trans (by decide)⟩

end CntPeer.Main
