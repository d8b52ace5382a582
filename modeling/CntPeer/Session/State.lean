import CntPeer.Msg

/-!
# The state of a session

One session is one end of one connection.  Its protocol thread runs `setup`,
then the event loop, then the teardown; `Pc` names the places where that thread
stands between two steps.  A step stays within one critical section or touches
one thing that other threads share; writes to the session's own connection,
which no other thread of the process observes, belong to the step before them.
-/

namespace CntPeer

abbrev Sid := Nat

inductive ChokeStatus where
  | choked
  | unchoked
  | unknown
  deriving DecidableEq

inductive InterestStatus where
  | interested
  | notInterested
  | unknown
  deriving DecidableEq

inductive Event where
  | timerChoke
  | timerUnchoke
  | bcastHave (pieceId : Nat)
  | msgChoke
  | msgUnchoke
  | msgInterest
  | msgNotInterest
  | msgHave (pieceId : Int)
  | msgRequest (pieceId : Int)
  | msgPiece (pieceId : Int) (piece : Piece)
  | msgTearDown
  deriving DecidableEq

namespace Event

def isTimer : Event → Bool
  | timerChoke | timerUnchoke => true
  | _ => false

def msg? : Event → Option Msg
  | timerChoke | timerUnchoke | bcastHave _ => none
  | msgChoke => some (.actual .chokeMsg)
  | msgUnchoke => some (.actual .unchokeMsg)
  | msgInterest => some (.actual .interestedMsg)
  | msgNotInterest => some (.actual .notInterestedMsg)
  | msgHave i => some (.actual (.haveMsg i))
  | msgRequest i => some (.actual (.requestMsg i))
  | msgPiece i d => some (.actual (.pieceMsg i d))
  | msgTearDown => some (.actual .tearDownMsg)

end Event

/-- The switch of `AsyncMsgScanner::scanLoop`. -/
def scanned : ActualMsg → Except Panic Event
  | .chokeMsg => .ok .msgChoke
  | .unchokeMsg => .ok .msgUnchoke
  | .interestedMsg => .ok .msgInterest
  | .notInterestedMsg => .ok .msgNotInterest
  | .tearDownMsg => .ok .msgTearDown
  | .haveMsg i => .ok (.msgHave i)
  | .bitfieldMsg _ => .error .unexpectedBitfield
  | .requestMsg i => .ok (.msgRequest i)
  | .pieceMsg i d => .ok (.msgPiece i d)

theorem msg?_of_scanned {m : ActualMsg} {e : Event} (h : scanned m = .ok e) :
    e.msg? = some (.actual m) := by
  cases m <;> cases h <;> rfl

/-- Where the protocol thread stands. -/
inductive Pc where
  | absent
  -- `setup`
  | handshake
  | snapshot
  | markReady
  | recvHandshake
  | recvBitfield
  | sendInterest
  | activate
  -- the event loop
  | loop
  /-- `e` is dequeued and not yet handled -/
  | handle (e : Event)
  | bcastInterest
  | bcastDone
  | requestNext
  | setRequested (i : Nat)
  | sendRequest (i : Nat)
  | preempt
  | relinquish
  | haveInterest
  -- `MsgRequest`: `PieceRepository::get`
  | getPiece (i : Nat)
  | readPiece (i : Nat)
  | cachePiece (i : Nat) (d : Piece)
  | sendPiece (i : Nat) (d : Piece)
  -- `MsgPiece`: `PieceRepository::save`, the log, `setOwned`, `broadcastHave`
  | savePiece (i : Nat) (d : Piece)
  | saveCache (i : Nat) (d : Piece)
  | readCount (i : Nat)
  | logPiece (i n : Nat)
  | countOwned (i : Nat)
  | markOwned (i : Nat)
  | bcastLock (i : Nat)
  | bcastNext (i : Nat) (rest : List Sid)
  | bcastEnq (i : Nat) (t : Sid) (rest : List Sid)
  | bcastWait (i : Nat) (t : Sid) (rest : List Sid)
  -- the teardown
  | drain
  | drainHave (i : Nat)
  | drainInterest
  | sendTearDown (received : Bool)
  | awaitTearDown
  | finalRelinquish
  | notify
  | ended
  deriving DecidableEq

def epidNoPreference : Int := -1

structure Session where
  addr : Nat := 0
  expectedPeerId : Int := epidNoPreference
  pc : Pc := .absent
  eq : List Event := []
  isActive : Bool := false
  isBcastReady : Bool := false
  isDone : Bool := false
  peerId : Option Int := none
  peerOwn : Option PieceBitfield := none
  scanning : Bool := false
  selfChoke : ChokeStatus := .unknown
  peerChoke : ChokeStatus := .unknown
  peerInterest : InterestStatus := .unknown
  recvBcnt : Nat := 0
  bfMsg : Option (List PieceStatus) := none
  /-- history: messages written to the peer, oldest first -/
  sent : List Msg := []
  /-- history: messages of the peer taken up, or discarded in the teardown -/
  handled : List Msg := []
  /-- history: commands of `choke` and `unchoke`, oldest first -/
  commands : List Event := []

namespace Session

def fresh : Session := {}

def peerSv (x : Session) : List PieceStatus :=
  match x.peerOwn with
  | none => []
  | some b => b.sv

def peerAll (x : Session) : Bool :=
  match x.peerOwn with
  | none => false
  | some b => b.owningAll

def events (x : Session) : List Event :=
  match x.pc with
  | .handle e => e :: x.eq
  | _ => x.eq

def pending (x : Session) : List Msg := x.events.filterMap Event.msg?

def enqAll (x : Session) (es : List Event) : Session :=
  { x with
    eq := x.eq ++ es
    commands := x.commands ++ es.filter Event.isTimer }

end Session

end CntPeer
