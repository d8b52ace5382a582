import CntPeer.Foundation.TextStream

/-!
# The configuration

The constructor of `Config` reads `Common.cfg` and `PeerInfo.cfg`, and
`validateConfig` looks at the file system.  A number that no line of
`Common.cfg` sets is left as the memory had it.
-/

namespace CntPeer.Main

open CntPeer.Foundation

inductive ConfigPanic where
  | unknownKey
  | badInteger
  | duplicatedPeerId
  | selfNotFound (selfPeerId : Int)
  | fileNotFound
  | fileLength
  | createDirectory
  deriving DecidableEq, Repr

def ConfigPanic.text : ConfigPanic → String
  | unknownKey => "unknown key name in Common.cfg"
  | badInteger => "Fail to parse integer in Common.cfg"
  | duplicatedPeerId => "duplicated peer id appeared in PeerInfo.cfg"
  | selfNotFound selfPeerId => "can't find self (peer id " ++
      toString selfPeerId ++ " ) inside Common.cfg"
  | fileNotFound => "self is supposed to own the file, but file is not found."
  | fileLength => "file length specified in config does not match" ++
      " real file length on filesystem."
  | createDirectory => "std::filesystem::create_directory"

inductive CommonKey where
  | numberOfPreferredNeighbors
  | unchokingInterval
  | optimisticUnchokingInterval
  | fileName
  | fileSize
  | pieceSize
  deriving DecidableEq, Repr

namespace CommonKey

def text : CommonKey → String
  | numberOfPreferredNeighbors => "NumberOfPreferredNeighbors"
  | unchokingInterval => "UnchokingInterval"
  | optimisticUnchokingInterval => "OptimisticUnchokingInterval"
  | fileName => "FileName"
  | fileSize => "FileSize"
  | pieceSize => "PieceSize"

def all : List CommonKey :=
  [numberOfPreferredNeighbors, unchokingInterval, optimisticUnchokingInterval,
    fileName, fileSize, pieceSize]

def ofText? (t : Text) : Option CommonKey :=
  all.find? fun key => decide (key.text.toList = t)

end CommonKey

/-- The members that `Common.cfg` sets; `none` is not set. -/
structure Common where
  numPn : Option Int := none
  pnInterval : Option Int := none
  optInterval : Option Int := none
  filePath : Option Text := none
  fileSize : Option Int := none
  pieceSize : Option Int := none
  deriving DecidableEq

def joinPath (dir name : Text) : Text :=
  match name with
  | '/' :: _ => name
  | _ => dir ++ '/' :: name

namespace Common

/-- One line of the loop; `none` is an exception of `std::stoi`. -/
def assign (peerDir : Text) (c : Common) (key : CommonKey) (value : Text) :
    Option Common :=
  match key with
  | .numberOfPreferredNeighbors =>
      (stoi value).map fun v => { c with numPn := some v }
  | .unchokingInterval =>
      (stoi value).map fun v => { c with pnInterval := some v }
  | .optimisticUnchokingInterval =>
      (stoi value).map fun v => { c with optInterval := some v }
  | .fileName => some { c with filePath := some (joinPath peerDir value) }
  | .fileSize => (stoi value).map fun v => { c with fileSize := some v }
  | .pieceSize => (stoi value).map fun v => { c with pieceSize := some v }

def readLine (peerDir : Text) (c : Common) (line : Text × Text) :
    Except ConfigPanic Common :=
  match CommonKey.ofText? line.1 with
  | none => .error .unknownKey
  | some key =>
      match c.assign peerDir key line.2 with
      | none => .error .badInteger
      | some c => .ok c

def extractLine : Extract (Text × Text) := fun l => do
  let (key, l) ← extractWord l
  let (value, l) ← extractWord l
  return ((key, value), l)

def read (peerDir : Text) (lines : List (Text × Text)) :
    Except ConfigPanic Common :=
  lines.foldlM (readLine peerDir) {}

def assigned (c : Common) : CommonKey → Bool
  | .numberOfPreferredNeighbors => c.numPn.isSome
  | .unchokingInterval => c.pnInterval.isSome
  | .optimisticUnchokingInterval => c.optInterval.isSome
  | .fileName => c.filePath.isSome
  | .fileSize => c.fileSize.isSome
  | .pieceSize => c.pieceSize.isSome

end Common

structure PeerRecord where
  peerId : Int
  fqdn : Text
  port : Int
  hasFile : Int
  deriving DecidableEq

def PeerRecord.extract : Extract PeerRecord := fun l => do
  let (peerId, l) ← extractInt l
  let (fqdn, l) ← extractWord l
  let (port, l) ← extractInt l
  let (hasFile, l) ← extractInt l
  return (⟨peerId, fqdn, port, hasFile⟩, l)

structure PeerInfo where
  peerId : Int
  port : Int
  fqdn : Text
  deriving DecidableEq

/-- The members that `PeerInfo.cfg` sets. -/
structure PeerTable where
  hasFile : Bool
  selfPort : Int
  priorPeers : List PeerInfo
  nTotalPeer : Nat
  deriving DecidableEq

namespace PeerTable

/-- The locals of the constructor while it reads `PeerInfo.cfg`. -/
structure Loading where
  idset : List Int := []
  self : Option (Bool × Int) := none
  priorPeers : List PeerInfo := []

def Loading.add (selfPeerId : Int) (x : Loading) (r : PeerRecord) :
    Except ConfigPanic Loading :=
  if r.peerId ∈ x.idset then .error .duplicatedPeerId
  else
    let self :=
      if x.self.isNone ∧ r.peerId = selfPeerId then
        some (decide (r.hasFile ≠ 0), r.port)
      else x.self
    .ok
      { idset := r.peerId :: x.idset
        self := self
        priorPeers :=
          if self.isNone then x.priorPeers ++ [⟨r.peerId, r.port, r.fqdn⟩]
          else x.priorPeers }

def read (selfPeerId : Int) (records : List PeerRecord) :
    Except ConfigPanic PeerTable := do
  let x ← records.foldlM (Loading.add selfPeerId) {}
  match x.self with
  | none => .error (.selfNotFound selfPeerId)
  | some (hasFile, selfPort) =>
      .ok ⟨hasFile, selfPort, x.priorPeers, x.idset.length⟩

end PeerTable

structure Config where
  selfPeerId : Int
  peerDir : Text
  common : Common
  peers : PeerTable
  deriving DecidableEq

namespace Config

def peerDirOf (selfPeerId : Int) : Text := (toString selfPeerId).toList

/-- The constructor, with the contents of `Common.cfg` and `PeerInfo.cfg`. -/
def read (selfPeerId : Int) (commonCfg peerInfoCfg : Text) :
    Except ConfigPanic Config := do
  let common ← Common.read (peerDirOf selfPeerId)
    (extractAll Common.extractLine commonCfg)
  let peers ← PeerTable.read selfPeerId (extractAll PeerRecord.extract peerInfoCfg)
  return ⟨selfPeerId, peerDirOf selfPeerId, common, peers⟩

end Config

structure FileSystem where
  fileSize : Text → Option Nat
  createDirectory : Text → Bool

/-- `validateConfig`; `memory` is what `file_size` holds when no line sets it. -/
def validateConfig (fs : FileSystem) (memory : Int) (config : Config) :
    Except ConfigPanic Unit :=
  if config.peers.hasFile then
    match fs.fileSize (config.common.filePath.getD []) with
    | none => .error .fileNotFound
    | some n =>
        if (n : Int) ≠ config.common.fileSize.getD memory % 2 ^ 64 then
          .error .fileLength
        else .ok ()
  else if fs.createDirectory config.peerDir then .ok ()
  else .error .createDirectory

theorem Common.consumes_extractLine : Consumes Common.extractLine := by
  intro l a rest h
  simp only [Common.extractLine, Option.bind_eq_bind, Option.pure_def,
    Option.bind_eq_some_iff, Option.some.injEq, Prod.mk.injEq] at h
  obtain ⟨⟨key, l₁⟩, hkey, ⟨value, l₂⟩, hvalue, -, rfl⟩ := h
  have h₁ := consumes_extractWord _ _ _ hkey
  have h₂ := consumes_extractWord _ _ _ hvalue
  exact h₂.trans h₁

theorem PeerRecord.consumes_extract : Consumes PeerRecord.extract := by
  intro l a rest h
  simp only [PeerRecord.extract, Option.bind_eq_bind, Option.pure_def,
    Option.bind_eq_some_iff, Option.some.injEq, Prod.mk.injEq] at h
  obtain ⟨⟨peerId, l₁⟩, hid, ⟨fqdn, l₂⟩, hfqdn, ⟨port, l₃⟩, hport,
    ⟨hasFile, l₄⟩, hfile, -, rfl⟩ := h
  have h₁ := consumes_extractInt _ _ _ hid
  have h₂ := consumes_extractWord _ _ _ hfqdn
  have h₃ := consumes_extractInt _ _ _ hport
  have h₄ := consumes_extractInt _ _ _ hfile
  exact h₄.trans (h₃.trans (h₂.trans h₁))

theorem Common.extractAll_line (l : Text) :
    extractAll Common.extractLine l =
      match Common.extractLine l with
      | none => []
      | some (line, rest) => line :: extractAll Common.extractLine rest := by
  rw [extractAll_eq Common.consumes_extractLine l]
  cases Common.extractLine l <;> rfl

theorem PeerRecord.extractAll_record (l : Text) :
    extractAll PeerRecord.extract l =
      match PeerRecord.extract l with
      | none => []
      | some (r, rest) => r :: extractAll PeerRecord.extract rest := by
  rw [extractAll_eq PeerRecord.consumes_extract l]
  cases PeerRecord.extract l <;> rfl

end CntPeer.Main
