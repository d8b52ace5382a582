import CntPeer.PieceBitfield
import CntPeer.PieceRepository

/-!
# Messages

`HandshakeMsg` opens a connection; every later message is an `ActualMsg`.
Piece indices are `int` values as the peer chose them.
-/

namespace CntPeer

inductive ActualMsg where
  | chokeMsg
  | unchokeMsg
  | interestedMsg
  | notInterestedMsg
  | haveMsg (pieceId : Int)
  | bitfieldMsg (snapshot : List PieceStatus)
  | requestMsg (pieceId : Int)
  | pieceMsg (pieceId : Int) (piece : Piece)
  | tearDownMsg
  deriving DecidableEq

inductive Msg where
  | handshakeMsg (peerId : Int)
  | actual (msg : ActualMsg)
  deriving DecidableEq

def Msg.opens : Msg → Bool
  | .handshakeMsg _ | .actual (.bitfieldMsg _) => true
  | _ => false

def tells (i : Nat) : Msg → Bool
  | .actual (.bitfieldMsg sv) => decide (sv[i]? = some .owned)
  | .actual (.haveMsg j) => decide (j = i)
  | _ => false

end CntPeer
