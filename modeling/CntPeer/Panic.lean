/-!
# How a process stops

`panic` prints its text and exits the process.  `crash` stands for undefined
behaviour and for exceptions that escape a thread; `exited` is the normal
return of `main`.
-/

namespace CntPeer

inductive Panic where
  | pieceNotOwned
  | pieceNotRequested
  | unexpectedPieceSize
  | fileNotWritable
  | indexOutOfBound
  | operandsSize
  | md5Mismatch (pieceId : Int)
  | unexpectedBitfield
  | unknownMessageType
  | expectingBitfield
  | handshakePrefix
  | unexpectedPeer
  | prematureTearDown
  | shortRead
  | tryPreemptUnknown
  | relinquishUnknown
  | cleanUpUnknown
  deriving DecidableEq, Repr

def Panic.text : Panic → String
  | .pieceNotOwned => "peer is requesting a piece self doesn't own"
  | .pieceNotRequested => "received a piece that self didn't request"
  | .unexpectedPieceSize => "unexpected piece size"
  | .fileNotWritable => "file is not writable."
  | .indexOutOfBound => "index out of bound."
  | .operandsSize => "operands size is not identical"
  | .md5Mismatch pieceId => "MD5 mismatch for piece id = " ++ toString pieceId
  | .unexpectedBitfield => "Receive unexpected Bitfield message"
  | .unknownMessageType => "Unknown message type."
  | .expectingBitfield => "Expecting Bitfield, but received something else."
  | .handshakePrefix => "Mismatch in handshake prefix"
  | .unexpectedPeer => "Received handshake from an unexpected peer."
  | .prematureTearDown => "premature teardown received"
  | .shortRead => "less-than-expected number of bytes is read by fread()"
  | .tryPreemptUnknown => "tryPreempt() on an unknown session address"
  | .relinquishUnknown => "relinquish() on an unknown session address"
  | .cleanUpUnknown => "can't find the session to be cleaned up"

def Panic.violation : Panic → Bool
  | .pieceNotOwned | .pieceNotRequested | .unexpectedPieceSize
  | .fileNotWritable | .indexOutOfBound | .operandsSize | .md5Mismatch _
  | .unexpectedBitfield | .unknownMessageType => true
  | _ => false

inductive Halt where
  | panic (reason : Panic)
  | crash
  | exited
  deriving DecidableEq, Repr

def Halt.ofRead : Halt → Bool
  | .crash | .panic (.md5Mismatch _) | .panic .unknownMessageType
  | .panic .handshakePrefix => true
  | _ => false

end CntPeer
