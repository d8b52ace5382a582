import CntPeer.Foundation.NetworkOrder
import CntPeer.Msg

/-!
# Messages as bytes

How messages are written to a connection and read from it.  Lengths and indices
travel as 32-bit signed numbers in network order, and their arithmetic wraps.
The digest of a piece is a parameter of the codec.
-/

namespace CntPeer

open CntPeer.Foundation CntPeer.Foundation.Reader

abbrev Digest := Vector UInt8 16

abbrev ByteReader := Reader UInt8 Halt

def write32htonl (value : Int) : List UInt8 := word32 value

def read32ntohl : ByteReader Int := word

def readVector (size : Int) : ByteReader (List UInt8) :=
  if size < 0 then fail .crash else take size.toNat

theorem reads_readVector {l : List UInt8} {size : Int}
    (h : size = l.length) : Reads (readVector size) l l := by
  rw [readVector, if_neg (by omega), h, Int.toNat_natCast]
  exact reads_take l

theorem readVector_eq_done {l a k : List UInt8} {size : Int} :
    readVector size l = .done a k ↔ l = a ++ k ∧ size = a.length := by
  unfold readVector
  split
  · rename_i hneg
    refine ⟨fun h => absurd h fail_ne_done, fun h => ?_⟩
    omega
  · rename_i hpos
    rw [take_eq_done]
    refine and_congr_right fun _ => ?_
    omega

theorem readVector_eq_fail {l : List UInt8} {size : Int} {e : Halt} :
    readVector size l = .fail e ↔ size < 0 ∧ e = .crash := by
  unfold readVector
  split
  · rename_i hneg
    rw [fail_eq_fail, and_iff_right hneg]
  · rename_i hpos
    exact ⟨fun h => absurd h take_ne_fail, fun h => absurd h.1 hpos⟩

theorem stable_readVector (size : Int) : Stable (readVector size) := by
  unfold readVector
  split
  · exact stable_fail _
  · exact stable_take _

namespace PieceStatus

def toByte : PieceStatus → UInt8
  | .absent => 0
  | .requested => 1
  | .owned => 2
  | .other byte _ => byte

def ofByte (byte : UInt8) : PieceStatus :=
  if h : 2 < byte then .other byte h
  else if byte = 0 then .absent
  else if byte = 1 then .requested
  else .owned

theorem ofByte_toByte (st : PieceStatus) : ofByte st.toByte = st := by
  cases st with
  | other byte h => exact dif_pos h
  | _ => rfl

theorem map_ofByte_toByte (sv : List PieceStatus) :
    (sv.map toByte).map ofByte = sv := by
  rw [List.map_map]
  exact (List.map_congr_left fun st _ => ofByte_toByte st).trans (List.map_id' sv)

theorem toByte_ofByte (byte : UInt8) : (ofByte byte).toByte = byte := by
  unfold ofByte
  split_ifs with h h0 h1
  · rfl
  · exact h0.symm
  · exact h1.symm
  · have h2 : byte.toNat ≤ 2 := UInt8.le_iff_toNat_le.mp (UInt8.not_lt.mp h)
    have hne0 : byte.toNat ≠ 0 := fun e => h0 (UInt8.toNat_inj.mp e)
    have hne1 : byte.toNat ≠ 1 := fun e => h1 (UInt8.toNat_inj.mp e)
    apply UInt8.toNat_inj.mp
    change 2 = byte.toNat
    omega

theorem map_toByte_ofByte (l : List UInt8) :
    (l.map ofByte).map toByte = l := by
  rw [List.map_map]
  exact (List.map_congr_left fun b _ => toByte_ofByte b).trans (List.map_id' l)

end PieceStatus

inductive MsgType where
  | choke
  | unchoke
  | interested
  | notInterested
  | have_
  | bitfield
  | request
  | piece
  | tearDown

namespace MsgType

def toByte : MsgType → UInt8
  | choke => 0
  | unchoke => 1
  | interested => 2
  | notInterested => 3
  | have_ => 4
  | bitfield => 5
  | request => 6
  | piece => 7
  | tearDown => 99

def ofByte? : UInt8 → Option MsgType
  | 0 => some choke
  | 1 => some unchoke
  | 2 => some interested
  | 3 => some notInterested
  | 4 => some have_
  | 5 => some bitfield
  | 6 => some request
  | 7 => some piece
  | 99 => some tearDown
  | _ => none

theorem ofByte?_toByte (t : MsgType) : ofByte? t.toByte = some t := by
  cases t <;> rfl

theorem ofByte?_eq_some {byte : UInt8} {t : MsgType} :
    ofByte? byte = some t ↔ byte = t.toByte := by
  constructor
  · intro h
    unfold ofByte? at h
    split at h
    all_goals
      cases h
      try rfl
  · rintro rfl
    exact ofByte?_toByte t

end MsgType

variable (md5 : List UInt8 → Digest)

namespace ActualMsg

def type : ActualMsg → MsgType
  | chokeMsg => .choke
  | unchokeMsg => .unchoke
  | interestedMsg => .interested
  | notInterestedMsg => .notInterested
  | haveMsg _ => .have_
  | bitfieldMsg _ => .bitfield
  | requestMsg _ => .request
  | pieceMsg _ _ => .piece
  | tearDownMsg => .tearDown

def payloadSize : ActualMsg → Int
  | haveMsg _ | requestMsg _ => 4
  | bitfieldMsg snapshot => snapshot.length
  | pieceMsg _ piece => 4 + 16 + piece.length
  | _ => 0

def writePayloadTo : ActualMsg → List UInt8
  | haveMsg pieceId | requestMsg pieceId => write32htonl pieceId
  | bitfieldMsg snapshot => snapshot.map PieceStatus.toByte
  | pieceMsg pieceId piece =>
      write32htonl pieceId ++ ((md5 piece).toList ++ piece)
  | _ => []

def writeTo (m : ActualMsg) : List UInt8 :=
  write32htonl (m.payloadSize + 1) ++ ([m.type.toByte] ++ m.writePayloadTo md5)

/-- The cases of `ActualMsg::readFrom`; `n` is the length read before. -/
def readPayload (n : Int) : MsgType → ByteReader ActualMsg
  | .choke => return chokeMsg
  | .unchoke => return unchokeMsg
  | .interested => return interestedMsg
  | .notInterested => return notInterestedMsg
  | .tearDown => return tearDownMsg
  | .have_ => do
      let pieceId ← read32ntohl
      return haveMsg pieceId
  | .bitfield => do
      let snapshot ← readVector (wrap32 (n - 1))
      return bitfieldMsg (snapshot.map PieceStatus.ofByte)
  | .request => do
      let pieceId ← read32ntohl
      return requestMsg pieceId
  | .piece => do
      let pieceId ← read32ntohl
      let peerMd5 ← take 16
      let piece ← readVector (wrap32 (n - 1 - 4 - 16))
      if peerMd5 = (md5 piece).toList then return pieceMsg pieceId piece
      else fail (.panic (.md5Mismatch pieceId))

def readFrom : ByteReader ActualMsg := do
  let n ← read32ntohl
  let type ← next
  match MsgType.ofByte? type with
  | some t => readPayload md5 n t
  | none => fail (.panic .unknownMessageType)

def Fits : ActualMsg → Prop
  | haveMsg pieceId | requestMsg pieceId => InWord pieceId
  | bitfieldMsg snapshot => snapshot.length < 2 ^ 31
  | pieceMsg pieceId piece => InWord pieceId ∧ piece.length < 2 ^ 31
  | _ => True

instance : (m : ActualMsg) → Decidable m.Fits
  | haveMsg pieceId | requestMsg pieceId =>
      inferInstanceAs (Decidable (InWord pieceId))
  | bitfieldMsg snapshot => Nat.decLt snapshot.length (2 ^ 31)
  | pieceMsg pieceId piece =>
      inferInstanceAs (Decidable (InWord pieceId ∧ piece.length < 2 ^ 31))
  | chokeMsg | unchokeMsg | interestedMsg | notInterestedMsg | tearDownMsg =>
      .isTrue trivial

variable {md5}

theorem reads_readPayload {m : ActualMsg} (h : m.Fits) :
    Reads (readPayload md5 (wrap32 (m.payloadSize + 1)) m.type)
      (m.writePayloadTo md5) m := by
  have hword : ∀ {pieceId : Int}, InWord pieceId →
      Reads read32ntohl (write32htonl pieceId) pieceId := by
    intro pieceId hid
    have hread := reads_word (ε := Halt) pieceId
    rwa [wrap32_of_inWord hid] at hread
  cases m with
  | haveMsg pieceId => exact (hword h).then_pure haveMsg
  | requestMsg pieceId => exact (hword h).then_pure requestMsg
  | bitfieldMsg snapshot =>
      have hsize : wrap32 (wrap32 ((snapshot.length : Int) + 1) - 1) =
          (snapshot.map PieceStatus.toByte).length := by
        rw [wrap32_sub, Int.add_sub_cancel, List.length_map,
          wrap32_of_inWord (inWord_natCast h)]
      have hread := (reads_readVector hsize).then_pure fun l =>
        bitfieldMsg (l.map PieceStatus.ofByte)
      rw [PieceStatus.map_ofByte_toByte] at hread
      exact hread
  | pieceMsg pieceId piece =>
      have hsize : wrap32 (wrap32 ((4 : Int) + 16 + piece.length + 1) - 1 - 4 - 16) =
          piece.length := by
        calc wrap32 (wrap32 ((4 : Int) + 16 + piece.length + 1) - 1 - 4 - 16)
            = wrap32 (wrap32 ((4 : Int) + 16 + piece.length + 1) - 21) :=
              congrArg wrap32 (by omega)
          _ = wrap32 ((4 : Int) + 16 + piece.length + 1 - 21) := wrap32_sub _ _
          _ = wrap32 piece.length := congrArg wrap32 (by omega)
          _ = piece.length := wrap32_of_inWord (inWord_natCast h.2)
      refine (hword h.1).bind ?_
      refine Reads.bind (a := (md5 piece).toList) ?_ ?_
      · have hread := reads_take (ε := Halt) (md5 piece).toList
        rwa [Vector.length_toList] at hread
      · have hread := reads_readVector hsize
        have hlast := hread.bind (f := fun piece' =>
          if (md5 piece).toList = (md5 piece').toList then
            (pure (pieceMsg pieceId piece') : ByteReader ActualMsg)
          else fail (.panic (.md5Mismatch pieceId))) (l := [])
          (c := pieceMsg pieceId piece) (by
            rw [if_pos rfl]
            exact reads_pure _)
        rwa [List.append_nil] at hlast
  | _ => exact reads_pure _

theorem reads_readFrom {m : ActualMsg} (h : m.Fits) :
    Reads (readFrom md5) (m.writeTo md5) m := by
  refine (reads_word _).bind ((reads_next _).bind ?_)
  rw [MsgType.ofByte?_toByte]
  exact reads_readPayload h

theorem stable_readPayload (n : Int) (t : MsgType) :
    Stable (readPayload md5 n t) := by
  cases t with
  | have_ => exact stable_word.then_pure _
  | request => exact stable_word.then_pure _
  | bitfield => exact (stable_readVector _).then_pure _
  | piece =>
      refine stable_word.bind fun pieceId => (stable_take 16).bind fun peerMd5 =>
        (stable_readVector _).bind fun piece => ?_
      split
      · exact stable_pure _
      · exact stable_fail _
  | _ => exact stable_pure _

theorem stable_readFrom : Stable (readFrom md5) := by
  refine stable_word.bind fun n => stable_next.bind fun type => ?_
  split
  · exact stable_readPayload n _
  · exact stable_fail _

theorem readFrom_nil : readFrom md5 [] = .more := rfl

end ActualMsg

namespace HandshakeMsg

def leading : List UInt8 :=
  ['P', '2', 'P', 'F', 'I', 'L', 'E', 'S', 'H', 'A', 'R', 'I', 'N', 'G', 'P',
    'R', 'O', 'J', '0', '0', '0', '0', '0', '0', '0', '0', '0', '0'].map
    Char.toUInt8

def writeTo (peerId : Int) : List UInt8 := leading ++ write32htonl peerId

def readFrom : ByteReader Int := do
  let buf ← take leading.length
  if buf = leading then read32ntohl else fail (.panic .handshakePrefix)

theorem reads_readFrom {peerId : Int} (h : InWord peerId) :
    Reads readFrom (writeTo peerId) peerId := by
  refine (reads_take leading).bind ?_
  rw [if_pos rfl]
  have hread := reads_word (ε := Halt) peerId
  rwa [wrap32_of_inWord h] at hread

theorem stable_readFrom : Stable readFrom := by
  refine (stable_take _).bind fun buf => ?_
  split
  · exact stable_word
  · exact stable_fail _

theorem readFrom_nil : readFrom [] = .more := rfl

end HandshakeMsg

namespace Msg

def writeTo : Msg → List UInt8
  | .handshakeMsg peerId => HandshakeMsg.writeTo peerId
  | .actual m => m.writeTo md5

def Fits : Msg → Prop
  | .handshakeMsg peerId => InWord peerId
  | .actual m => m.Fits

end Msg

end CntPeer
