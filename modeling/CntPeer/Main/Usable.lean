import Mathlib.Algebra.Order.Group.Int
import Mathlib.Data.Sum.Basic
import CntPeer.Main.Config
import CntPeer.PieceRepository.PlainFile
import CntPeer.Process

/-!
# Usable configurations

No line of `Common.cfg` is required, and no number is checked.  What the numbers
have to be is stated here over the lines, and traced to the places that use them.
-/

namespace CntPeer.Main

open CntPeer.Foundation

/-- The quotient in `MathUtils::ceilingDiv`, before the cast. -/
def ceilingQuotient (x y : Int) : Int := (x + y - 1).tdiv y

def ceilingDiv (x y : Int) : Int := wrap32 (ceilingQuotient x y)

def pieceLength (fileSize pieceSize i : Int) : Int :=
  min pieceSize (fileSize - i * pieceSize)

def pieceFrameLength (size : Int) : Int := 4 + 16 + size + 1

def nnPn (numPn : Int) (nSessions : Nat) : Int := min numPn nSessions

structure Defined (numPn fileSize pieceSize : Int) : Prop where
  divisor : pieceSize ≠ 0
  cast : ceilingDiv fileSize pieceSize = ceilingQuotient fileSize pieceSize
  count : 0 ≤ ceilingDiv fileSize pieceSize
  length : ∀ i, 0 ≤ i → i < ceilingDiv fileSize pieceSize →
    1 ≤ pieceLength fileSize pieceSize i ∧
      pieceLength fileSize pieceSize i ≤ pieceSize
  frame : ∀ i, 0 ≤ i → i < ceilingDiv fileSize pieceSize →
    InWord (pieceFrameLength (pieceLength fileSize pieceSize i))
  preferred : ∀ nSessions : Nat, InWord nSessions →
    0 ≤ nnPn numPn nSessions ∧ nnPn numPn nSessions ≤ nSessions

structure Common.Usable (c : Common) : Prop where
  assigned : ∀ key, c.assigned key
  defined : ∀ numPn ∈ c.numPn, ∀ fileSize ∈ c.fileSize,
    ∀ pieceSize ∈ c.pieceSize, Defined numPn fileSize pieceSize

/-- `main` goes on with the configuration after `validateConfig`. -/
structure Accepted (fs : FileSystem) (memory selfPeerId : Int)
    (commonCfg peerInfoCfg : Text) (config : Config) : Prop where
  read : Config.read selfPeerId commonCfg peerInfoCfg = .ok config
  valid : validateConfig fs memory config = .ok ()

/-- There are pieces and each fits into a frame, or there are none. -/
def Fits (fileSize pieceSize : Int) : Prop :=
  (1 ≤ fileSize ∧ 1 ≤ pieceSize ∧ min pieceSize fileSize < 2 ^ 31 - 21) ∨
    (fileSize + pieceSize - 1).natAbs < pieceSize.natAbs

def setting (lines : List (Text × Text)) (key : CommonKey) : Option Text :=
  (lines.reverse.find? fun line => line.1 = key.text.toList).map Prod.snd

def number (lines : List (Text × Text)) (key : CommonKey) : Option Int :=
  (setting lines key).bind stoi

structure WellSet (lines : List (Text × Text)) : Prop where
  present : ∀ key, (setting lines key).isSome
  numPn : ∀ numPn ∈ number lines .numberOfPreferredNeighbors, 0 ≤ numPn
  sizes : ∀ fileSize ∈ number lines .fileSize,
    ∀ pieceSize ∈ number lines .pieceSize, Fits fileSize pieceSize

theorem ceilingQuotient_of_pos {x y : Int} (hx : 1 ≤ x) (hy : 1 ≤ y) :
    1 ≤ ceilingQuotient x y ∧ ceilingQuotient x y ≤ x ∧
      ∀ i, i < ceilingQuotient x y → i * y < x := by
  have hdiv : ceilingQuotient x y = (x + y - 1) / y :=
    Int.tdiv_eq_ediv_of_nonneg (by omega)
  have hbegin : ∀ i, i < ceilingQuotient x y → i * y < x := by
    intro i hi
    rw [hdiv] at hi
    have hmul := (Int.le_ediv_iff_mul_le (by omega)).mp (Int.add_one_le_of_lt hi)
    rw [Int.add_mul, Int.one_mul] at hmul
    omega
  refine ⟨?_, ?_, hbegin⟩
  · rw [hdiv]
    exact (Int.le_ediv_iff_mul_le (by omega)).mpr (by omega)
  · by_contra hlt
    have hx' := hbegin x (by omega)
    have hmul : x * 1 ≤ x * y := Int.mul_le_mul_of_nonneg_left hy (by omega)
    omega

theorem ceilingQuotient_eq_zero {x y : Int} (hy : y ≠ 0) :
    ceilingQuotient x y = 0 ↔ (x + y - 1).natAbs < y.natAbs := by
  rw [ceilingQuotient, ← Int.natAbs_eq_zero, Int.natAbs_tdiv]
  exact Nat.div_eq_zero_iff_lt (Int.natAbs_pos.mpr hy)

theorem defined_iff {numPn fileSize pieceSize : Int} (hsize : InWord fileSize) :
    Defined numPn fileSize pieceSize ↔ 0 ≤ numPn ∧ Fits fileSize pieceSize := by
  constructor
  · intro h
    have hpn := (h.preferred 1 (by decide)).1
    refine ⟨by rw [nnPn] at hpn; omega, ?_⟩
    rcases h.count.lt_or_eq with hpos | hzero
    · obtain ⟨hlow, hhigh⟩ := h.length 0 le_rfl hpos
      have hframe := h.frame 0 le_rfl hpos
      rw [pieceLength, Int.zero_mul, Int.sub_zero] at hlow hhigh hframe
      rw [pieceFrameLength] at hframe
      exact .inl ⟨by omega, by omega, by have := hframe.2; omega⟩
    · rw [h.cast] at hzero
      exact .inr ((ceilingQuotient_eq_zero h.divisor).mp hzero.symm)
  · rintro ⟨hpn, ⟨hS, hP, hframe⟩ | hnone⟩
    · obtain ⟨hcount, hle, hbegin⟩ := ceilingQuotient_of_pos hS hP
      have hcast : ceilingDiv fileSize pieceSize = ceilingQuotient fileSize pieceSize :=
        wrap32_of_inWord ⟨by omega, by have := hsize.2; omega⟩
      have hlength : ∀ i, 0 ≤ i → i < ceilingDiv fileSize pieceSize →
          1 ≤ pieceLength fileSize pieceSize i ∧
            pieceLength fileSize pieceSize i ≤ min pieceSize fileSize := by
        intro i hi hlt
        have hlt' := hbegin i (hcast ▸ hlt)
        have hmul := Int.mul_nonneg hi (by omega : 0 ≤ pieceSize)
        rw [pieceLength]
        omega
      refine ⟨by omega, hcast, by omega, fun i hi hlt => ?_, fun i hi hlt => ?_, ?_⟩
      · have hi' := hlength i hi hlt
        omega
      · have hi' := hlength i hi hlt
        rw [InWord, pieceFrameLength]
        omega
      · intro n _
        rw [nnPn]
        omega
    · have hP : pieceSize ≠ 0 := by omega
      have hzero := (ceilingQuotient_eq_zero hP).mpr hnone
      have hcount : ceilingDiv fileSize pieceSize = 0 := by
        rw [ceilingDiv, hzero]
        rfl
      refine ⟨hP, by rw [hcount, hzero], hcount.ge, fun i hi hlt => ?_,
        fun i hi hlt => ?_, ?_⟩
      · omega
      · omega
      · intro n _
        rw [nnPn]
        omega

namespace CommonKey

theorem text_injective {key key' : CommonKey}
    (h : key.text.toList = key'.text.toList) : key = key' := by
  revert h
  cases key <;> cases key' <;> decide

theorem text_of_ofText {t : Text} {key : CommonKey} (h : ofText? t = some key) :
    key.text.toList = t := by
  have hfound := List.find?_some h
  exact of_decide_eq_true hfound

def parse (peerDir : Text) : CommonKey → Text → Option (Int ⊕ Text)
  | fileName, value => some (.inr (joinPath peerDir value))
  | _, value => (stoi value).map .inl

end CommonKey

namespace Common

variable {peerDir : Text} {c c' : Common} {lines : List (Text × Text)}

def member (c : Common) : CommonKey → Option (Int ⊕ Text)
  | .numberOfPreferredNeighbors => c.numPn.map .inl
  | .unchokingInterval => c.pnInterval.map .inl
  | .optimisticUnchokingInterval => c.optInterval.map .inl
  | .fileName => c.filePath.map .inr
  | .fileSize => c.fileSize.map .inl
  | .pieceSize => c.pieceSize.map .inl

theorem assigned_eq (key : CommonKey) : c.assigned key = (c.member key).isSome := by
  cases key <;> simp [assigned, member]

theorem member_assign {key : CommonKey} {value : Text}
    (h : c.assign peerDir key value = some c') (k : CommonKey) :
    (c'.member k).map some =
      if k = key then some (key.parse peerDir value) else (c.member k).map some := by
  cases key with
  | fileName =>
      cases h
      cases k <;> rfl
  | _ =>
      obtain ⟨v, hv, rfl⟩ := Option.map_eq_some_iff.mp h
      cases k <;> simp [member, CommonKey.parse, hv]

theorem setting_concat (line : Text × Text) (key : CommonKey) :
    setting (lines ++ [line]) key =
      if line.1 = key.text.toList then some line.2 else setting lines key := by
  unfold setting
  rw [List.reverse_append, List.reverse_singleton, List.singleton_append,
    List.find?_cons]
  by_cases heq : line.1 = key.text.toList
  · rw [if_pos heq, decide_eq_true heq]
    rfl
  · rw [if_neg heq, decide_eq_false heq]

def Follows (peerDir : Text) (lines : List (Text × Text)) (c : Common) : Prop :=
  ∀ key, (c.member key).map some = (setting lines key).map (key.parse peerDir)

theorem Follows.readLine {line : Text × Text} (h : Follows peerDir lines c)
    (hline : readLine peerDir c line = .ok c') :
    Follows peerDir (lines ++ [line]) c' := by
  intro k
  unfold Common.readLine at hline
  split at hline
  · contradiction
  · rename_i key hkey
    have htext := CommonKey.text_of_ofText hkey
    split at hline
    · contradiction
    · rename_i c₁ hassign
      cases hline
      rw [member_assign hassign, setting_concat]
      by_cases hk : k = key
      · subst hk
        rw [if_pos rfl, if_pos htext.symm, Option.map_some]
      · rw [if_neg hk, if_neg fun heq =>
          hk (CommonKey.text_injective (heq.symm.trans htext.symm)), h k]

theorem follows_read (h : read peerDir lines = .ok c) : Follows peerDir lines c := by
  refine loop_invariant Follows.readLine (fun key => ?_) h
  cases key <;> rfl

theorem Follows.assigned (h : Follows peerDir lines c) (key : CommonKey) :
    c.assigned key = (setting lines key).isSome := by
  have hkey := congrArg Option.isSome (h key)
  rwa [Option.isSome_map, Option.isSome_map, ← assigned_eq] at hkey

theorem Follows.member (h : Follows peerDir lines c) (key : CommonKey) :
    c.member key = (setting lines key).bind (key.parse peerDir) := by
  have hkey := h key
  cases hvalue : setting lines key with
  | none =>
      rw [hvalue] at hkey
      exact Option.map_eq_none_iff.mp hkey
  | some value =>
      rw [hvalue] at hkey
      obtain ⟨m, hm, hparse⟩ := Option.map_eq_some_iff.mp hkey
      rw [hm]
      exact hparse

theorem Follows.number (h : Follows peerDir lines c) (key : CommonKey)
    {x : Option Int} (hmember : c.member key = x.map .inl)
    (hparse : ∀ value, key.parse peerDir value = (stoi value).map .inl) :
    x = number lines key := by
  have hkey := h.member key
  have hmap : (setting lines key).bind (key.parse peerDir) =
      (Main.number lines key).map .inl := by
    rw [funext hparse, Main.number, Option.map_bind]
    rfl
  rw [hmember, hmap] at hkey
  exact Option.map_injective Sum.inl_injective hkey

theorem Follows.usable_iff (h : Follows peerDir lines c) :
    c.Usable ↔ WellSet lines := by
  have hpn : c.numPn = _ := h.number .numberOfPreferredNeighbors rfl fun _ => rfl
  have hsize : c.fileSize = _ := h.number .fileSize rfl fun _ => rfl
  have hpiece : c.pieceSize = _ := h.number .pieceSize rfl fun _ => rfl
  have hword : ∀ {key v}, v ∈ Main.number lines key → InWord v := by
    intro key v hv
    obtain ⟨value, -, hv⟩ := Option.bind_eq_some_iff.mp hv
    exact inWord_of_stoi hv
  constructor
  · intro hc
    obtain ⟨numPn, hn⟩ := Option.isSome_iff_exists.mp
      (hc.assigned .numberOfPreferredNeighbors)
    obtain ⟨fileSize, hS⟩ := Option.isSome_iff_exists.mp (hc.assigned .fileSize)
    obtain ⟨pieceSize, hP⟩ := Option.isSome_iff_exists.mp (hc.assigned .pieceSize)
    refine ⟨fun key => h.assigned key ▸ hc.assigned key, fun numPn hn => ?_,
      fun fileSize hS pieceSize hP => ?_⟩
    · have hdefined := hc.defined numPn (hpn ▸ hn) fileSize hS pieceSize hP
      exact ((defined_iff (hword (hsize ▸ hS))).mp hdefined).1
    · have hdefined := hc.defined numPn hn fileSize (hsize ▸ hS) pieceSize
        (hpiece ▸ hP)
      exact ((defined_iff (hword hS)).mp hdefined).2
  · intro hl
    refine ⟨fun key => (h.assigned key).trans (hl.present key),
      fun numPn hn fileSize hS pieceSize hP => ?_⟩
    rw [hpn] at hn
    rw [hsize] at hS
    rw [hpiece] at hP
    exact (defined_iff (hword hS)).mpr
      ⟨hl.numPn numPn hn, hl.sizes fileSize hS pieceSize hP⟩

end Common

variable {fs : FileSystem} {memory selfPeerId : Int} {commonCfg peerInfoCfg : Text}
  {config : Config}

theorem Common.read_of_accepted
    (h : Accepted fs memory selfPeerId commonCfg peerInfoCfg config) :
    Common.read (Config.peerDirOf selfPeerId)
      (extractAll Common.extractLine commonCfg) = .ok config.common := by
  obtain ⟨common, hcommon, hread⟩ := bind_eq_ok.mp h.read
  obtain ⟨peers, -, hread⟩ := bind_eq_ok.mp hread
  cases hread
  exact hcommon

/--
The configuration that `main` goes on with is usable exactly when the lines of
`Common.cfg` set every key, the number of preferred neighbours is not negative,
and the sizes fit.
-/
theorem accepted_usable
    (h : Accepted fs memory selfPeerId commonCfg peerInfoCfg config) :
    config.common.Usable ↔ WellSet (extractAll Common.extractLine commonCfg) :=
  (Common.follows_read (Common.read_of_accepted h)).usable_iff

/-- The configuration as the model of the process has it. -/
def Config.view (config : Config) (file : List UInt8) : CntPeer.Config where
  selfPeerId := config.selfPeerId
  hasFile := config.peers.hasFile
  file := file
  fileSize := (config.common.fileSize.getD 0).toNat
  pieceSize := (config.common.pieceSize.getD 0).toNat
  numPn := (config.common.numPn.getD 0).toNat
  totalPeerCount := config.peers.nTotalPeer

theorem Config.nPieces_view {file : List UInt8} {fileSize pieceSize : Int}
    (hS : config.common.fileSize = some fileSize)
    (hP : config.common.pieceSize = some pieceSize) (hword : InWord fileSize)
    (hfits : Fits fileSize pieceSize) :
    ((config.view file).nPieces : Int) = ceilingDiv fileSize pieceSize := by
  have hcount : (config.view file).nPieces =
      CntPeer.ceilingDiv fileSize.toNat pieceSize.toNat := by
    rw [CntPeer.Config.nPieces, view, hS, hP, Option.getD_some, Option.getD_some]
  rw [hcount]
  rcases hfits with ⟨hpos, hpos', -⟩ | hnone
  · have hcast := ceilingDiv_int (S := fileSize.toNat) (P := pieceSize.toNat)
      (by have := hword.2; omega) (by omega)
    rw [Int.toNat_of_nonneg (by omega), Int.toNat_of_nonneg (by omega)] at hcast
    exact hcast.symm
  · have hzero := (ceilingQuotient_eq_zero (by omega)).mpr hnone
    rw [ceilingDiv, hzero]
    rcases Nat.eq_zero_or_pos pieceSize.toNat with hP0 | hP0
    · rw [hP0, CntPeer.ceilingDiv, Nat.div_zero]
      rfl
    · rw [CntPeer.ceilingDiv, Nat.div_eq_of_lt (by omega)]
      rfl

def emptyDisk : FileSystem where
  fileSize := fun _ => none
  createDirectory := fun _ => true

def commonText (sizes : String) : Text :=
  "NumberOfPreferredNeighbors 2\nUnchokingInterval 5\n".toList ++
    "OptimisticUnchokingInterval 15\nFileName a.dat\n".toList ++ sizes.toList

def aloneText : Text := "1001 localhost 6008 0\n".toList

def aloneConfig (fileSize pieceSize : Option Int) : Config where
  selfPeerId := 1001
  peerDir := Config.peerDirOf 1001
  common :=
    { numPn := some 2, pnInterval := some 5, optInterval := some 15,
      filePath := some (joinPath (Config.peerDirOf 1001) "a.dat".toList),
      fileSize := fileSize, pieceSize := pieceSize }
  peers := ⟨false, 6008, [], 1⟩

theorem accepted_usable_alone :
    Accepted emptyDisk 0 1001 (commonText "FileSize 10\nPieceSize 4\n") aloneText
        (aloneConfig (some 10) (some 4)) ∧
      (aloneConfig (some 10) (some 4)).common.Usable := by
  have haccepted : Accepted emptyDisk 0 1001
      (commonText "FileSize 10\nPieceSize 4\n") aloneText
      (aloneConfig (some 10) (some 4)) := ⟨by decide +kernel, rfl⟩
  have hfollows := Common.follows_read (Common.read_of_accepted haccepted)
  have hn := hfollows.number .numberOfPreferredNeighbors (x := some 2) rfl fun _ => rfl
  have hS := hfollows.number .fileSize (x := some 10) rfl fun _ => rfl
  have hP := hfollows.number .pieceSize (x := some 4) rfl fun _ => rfl
  refine ⟨haccepted, (accepted_usable haccepted).mpr ⟨fun key => ?_, ?_, ?_⟩⟩
  · rw [← hfollows.assigned]
    cases key <;> rfl
  · rw [← hn]
    decide
  · rw [← hS, ← hP]
    rintro S ⟨⟩ P ⟨⟩
    exact .inl (by decide)

/-- `Common.cfg` without a line for the piece size is accepted, and so is the
piece size zero. -/
theorem accepted_not_usable :
    (Accepted emptyDisk 0 1001 (commonText "FileSize 10\n") aloneText
        (aloneConfig (some 10) none) ∧
      ¬ (aloneConfig (some 10) none).common.Usable) ∧
    Accepted emptyDisk 0 1001 (commonText "FileSize 10\nPieceSize 0\n") aloneText
        (aloneConfig (some 10) (some 0)) ∧
      ¬ (aloneConfig (some 10) (some 0)).common.Usable := by
  refine ⟨⟨⟨by decide +kernel, rfl⟩, fun h => ?_⟩,
    ⟨by decide +kernel, rfl⟩, fun h => ?_⟩
  · exact Bool.false_ne_true (h.assigned .pieceSize)
  · exact (h.defined 2 rfl 10 rfl 0 rfl).divisor rfl

end CntPeer.Main
