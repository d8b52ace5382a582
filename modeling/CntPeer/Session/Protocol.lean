import CntPeer.Session.Collection

/-!
# The protocol thread

`protocol` is the program of a session's thread, one step at a time: from the
place where the thread stands it yields the shared state, the session itself,
the events enqueued at sessions of the process and the messages written to the
peer.  `runnable` says when the thread is not blocked there.
-/

namespace CntPeer

inductive LogEntry where
  | pieceDownloaded (peerId : Option Int) (pieceId numOwnedPiece : Nat)
  | fileDownloaded
  deriving DecidableEq

/-- What the threads of one process share besides the sessions. -/
structure Shared where
  selfPeerId : Int
  own : SyncPieceBitfield Sid
  repo : PieceRepository
  log : List LogEntry
  sc : SessionCollection
  /-- the thread that holds `m_req` across steps -/
  mReq : Option Sid
  halt : Option Halt

structure Proc where
  sh : Shared
  sess : Sid → Session

structure Effect where
  sh : Shared
  me : Session
  posts : Posts := []
  out : List Msg := []

def Effect.after (e : Effect) : Session :=
  { e.me with sent := e.me.sent ++ e.out }

/-- What a step draws: random numbers, and the entries eviction keeps. -/
structure Choice where
  rnd : Nat := 0
  keep : Nat → Bool := fun _ => true

namespace Session

def goto (x : Session) (pc : Pc) : Session := { x with pc := pc }

def took (x : Session) (m : ActualMsg) : Session :=
  { x with handled := x.handled ++ [.actual m] }

end Session

def panicEffect (sh : Shared) (x : Session) (reason : Panic) : Effect :=
  { sh := { sh with halt := some (.panic reason) }, me := x }

/-- Continue with the indices of `*peer_own - self_own`. -/
def withDifference (sh : Shared) (x : Session) (k : List Nat → Effect) :
    Effect :=
  match difference x.peerSv sh.own.sv with
  | none => panicEffect sh x .operandsSize
  | some is => k is

def withCollection (sh : Shared) (x : Session)
    (r : Except Panic (SessionCollection × Posts)) (pc : Pc)
    (out : List Msg) : Effect :=
  match r with
  | .error reason => panicEffect sh x reason
  | .ok (sc, posts) =>
      { sh := { sh with sc := sc }, me := x.goto pc, posts := posts, out := out }

def handle (sh : Shared) (x : Session) : Event → Effect
  | .timerChoke =>
      if x.peerChoke ≠ .choked then
        { sh := sh, me := { x with pc := .loop, peerChoke := .choked }
          out := [.actual .chokeMsg] }
      else { sh := sh, me := x.goto .loop }
  | .timerUnchoke =>
      if x.peerChoke ≠ .unchoked then
        { sh := sh, me := { x with pc := .loop, peerChoke := .unchoked }
          out := [.actual .unchokeMsg] }
      else { sh := sh, me := x.goto .loop }
  | .bcastHave i =>
      { sh := sh, me := x.goto .bcastInterest, out := [.actual (.haveMsg i)] }
  | .msgChoke =>
      { sh := sh
        me := { x.took .chokeMsg with pc := .loop, selfChoke := .choked } }
  | .msgUnchoke =>
      { sh := sh
        me := { x.took .unchokeMsg with
          pc := .requestNext, selfChoke := .unchoked } }
  | .msgInterest =>
      { sh := sh
        me := { x.took .interestedMsg with
          pc := .preempt, peerInterest := .interested } }
  | .msgNotInterest =>
      if x.peerChoke = .unchoked then
        { sh := sh
          me := { x.took .notInterestedMsg with
            pc := .relinquish, peerInterest := .notInterested } }
      else
        { sh := sh
          me := { x.took .notInterestedMsg with
            pc := .loop, peerInterest := .notInterested }
          out := [.actual .chokeMsg] }
  | .msgHave i =>
      if checkRange x.peerSv i then
        let y := { x.took (.haveMsg i) with
          peerOwn := x.peerOwn.map (PieceBitfield.setOwned · i.toNat) }
        if sh.own.owningAll && y.peerAll then
          { sh := sh, me := { y with pc := .loop, isDone := true } }
        else { sh := sh, me := y.goto .haveInterest }
      else panicEffect sh x .indexOutOfBound
  | .msgRequest i =>
      if checkRange sh.own.sv i then
        if sh.own.isOwned i.toNat then
          { sh := sh, me := (x.took (.requestMsg i)).goto (.getPiece i.toNat) }
        else panicEffect sh x .pieceNotOwned
      else panicEffect sh x .indexOutOfBound
  | .msgPiece i d =>
      if checkRange sh.own.sv i then
        if sh.own.isRequested i.toNat then
          { sh := sh
            me := (x.took (.pieceMsg i d)).goto (.savePiece i.toNat d) }
        else panicEffect sh x .pieceNotRequested
      else panicEffect sh x .indexOutOfBound
  | .msgTearDown => panicEffect sh x .prematureTearDown

def discard (x : Session) (e : Event) (rest : List Event) : Session :=
  { x with eq := rest, handled := x.handled ++ e.msg?.toList }

def drainStep (sh : Shared) (x : Session) : Effect :=
  match x.eq with
  | [] => { sh := sh, me := x.goto (.sendTearDown false) }
  | e :: rest =>
      let y := discard x e rest
      match e with
      | .bcastHave i => { sh := sh, me := y.goto (.drainHave i) }
      | .msgTearDown => { sh := sh, me := y.goto (.sendTearDown true) }
      | _ => { sh := sh, me := y }

def awaitStep (sh : Shared) (x : Session) : Effect :=
  match x.eq with
  | [] => { sh := sh, me := x }
  | e :: rest =>
      let y := discard x e rest
      match e with
      | .msgTearDown => { sh := sh, me := y.goto .finalRelinquish }
      | _ => { sh := sh, me := y }

def protocol (p : Proc) (s : Sid) (c : Choice) : Effect :=
  let sh := p.sh
  let x := p.sess s
  match x.pc with
  | .absent | .recvHandshake | .recvBitfield | .ended => { sh := sh, me := x }
  | .handshake =>
      { sh := sh, me := x.goto .snapshot, out := [.handshakeMsg sh.selfPeerId] }
  | .snapshot =>
      { sh := sh
        me := { x with pc := .markReady, bfMsg := some sh.own.snapshot } }
  | .markReady =>
      { sh := sh, me := { x with pc := .recvHandshake, isBcastReady := true }
        out := x.bfMsg.toList.map fun sv => .actual (.bitfieldMsg sv) }
  | .sendInterest =>
      withDifference sh x fun is =>
        { sh := sh, me := { x with pc := .activate, scanning := true }
          out := [.actual
            (if is.isEmpty then .notInterestedMsg else .interestedMsg)] }
  | .activate => { sh := sh, me := { x with pc := .loop, isActive := true } }
  | .loop =>
      if x.isDone then { sh := sh, me := x.goto .drain }
      else
        match x.eq with
        | [] => { sh := sh, me := x }
        | e :: rest => { sh := sh, me := { x with pc := .handle e, eq := rest } }
  | .handle e => handle sh x e
  | .bcastInterest =>
      withDifference sh x fun is =>
        { sh := sh, me := x.goto .bcastDone
          out := if is.isEmpty then [.actual .notInterestedMsg] else [] }
  | .bcastDone =>
      { sh := sh
        me := { x with
          pc := .loop, isDone := x.isDone || sh.own.owningAll && x.peerAll } }
  | .requestNext =>
      withDifference sh x fun is =>
        match is[c.rnd % is.length]? with
        | none => { sh := sh, me := x.goto .loop }
        | some i =>
            { sh := { sh with mReq := some s }, me := x.goto (.setRequested i) }
  | .setRequested i =>
      if i < sh.own.sv.length then
        { sh := { sh with own := sh.own.setRequested i, mReq := none }
          me := x.goto (.sendRequest i) }
      else panicEffect sh x .indexOutOfBound
  | .sendRequest i =>
      { sh := sh, me := x.goto .loop, out := [.actual (.requestMsg i)] }
  | .preempt =>
      withCollection sh x (sh.sc.tryPreempt p.sess x.addr) .loop []
  | .relinquish =>
      withCollection sh x (sh.sc.relinquish p.sess x.addr) .loop
        [.actual .chokeMsg]
  | .haveInterest =>
      withDifference sh x fun is =>
        { sh := sh, me := x.goto .loop
          out := if is.isEmpty then [] else [.actual .interestedMsg] }
  | .getPiece i =>
      match sh.repo.find i with
      | some d => { sh := sh, me := x.goto (.sendPiece i d) }
      | none => { sh := sh, me := x.goto (.readPiece i) }
  | .readPiece i =>
      match sh.repo.read i with
      | some d => { sh := sh, me := x.goto (.cachePiece i d) }
      | none => panicEffect sh x .shortRead
  | .cachePiece i d =>
      { sh := { sh with repo := sh.repo.emplace c.keep i d }
        me := x.goto (.sendPiece i d) }
  | .sendPiece i d =>
      { sh := sh, me := x.goto .loop, out := [.actual (.pieceMsg i d)] }
  | .savePiece i d =>
      match sh.repo.write i d with
      | .error reason => panicEffect sh x reason
      | .ok repo =>
          { sh := { sh with repo := repo }, me := x.goto (.saveCache i d) }
  | .saveCache i d =>
      { sh := { sh with repo := sh.repo.emplace c.keep i d }
        me := x.goto (.readCount i) }
  | .readCount i =>
      { sh := sh, me := x.goto (.logPiece i (sh.own.nOwned + 1)) }
  | .logPiece i n =>
      { sh := { sh with log := sh.log ++ [.pieceDownloaded x.peerId i n] }
        me := x.goto (.countOwned i) }
  | .countOwned i =>
      if i < sh.own.sv.length then
        let own := sh.own.countOwned s i
        { sh := { sh with
            own := own
            log := sh.log ++ if own.owningAll then [.fileDownloaded] else [] }
          me := x.goto (.markOwned i) }
      else panicEffect sh x .indexOutOfBound
  | .markOwned i =>
      { sh := { sh with own := sh.own.markOwned i }
        me := x.goto (.bcastLock i) }
  | .bcastLock i =>
      { sh := { sh with sc := { sh.sc with m := some s } }
        me := x.goto (.bcastNext i (sh.sc.ss.map Sn.s)) }
  | .bcastNext _ [] =>
      { sh := { sh with sc := { sh.sc with m := none } }
        me := x.goto
          (if x.selfChoke = .unchoked then .requestNext else .loop) }
  | .bcastNext i (t :: rest) =>
      if (p.sess t).isBcastReady then
        { sh := sh, me := x.goto (.bcastEnq i t rest) }
      else { sh := sh, me := x.goto (.bcastWait i t rest) }
  | .bcastEnq i t rest =>
      { sh := sh, me := x.goto (.bcastNext i rest)
        posts := [(t, .bcastHave i)] }
  | .bcastWait i t rest =>
      { sh := sh, me := x.goto (.bcastNext i rest)
        posts :=
          if (p.sess t).isBcastReady then [(t, .bcastHave i)] else [] }
  | .drain => drainStep sh x
  | .drainHave i =>
      { sh := sh, me := x.goto .drainInterest, out := [.actual (.haveMsg i)] }
  | .drainInterest =>
      withDifference sh x fun is =>
        { sh := sh, me := x.goto .drain
          out := if is.isEmpty then [.actual .notInterestedMsg] else [] }
  | .sendTearDown received =>
      { sh := sh
        me := x.goto (if received then .finalRelinquish else .awaitTearDown)
        out := [.actual .tearDownMsg] }
  | .awaitTearDown => awaitStep sh x
  | .finalRelinquish =>
      withCollection sh x (sh.sc.relinquish p.sess x.addr) .notify []
  | .notify =>
      { sh := { sh with sc := { sh.sc with gcBq := sh.sc.gcBq ++ [x.addr] } }
        me := x.goto .ended }

/-- Whether the protocol thread of session `s` can take its next step: the
mutex it needs is free, the queue it reads is not empty. -/
def runnable (p : Proc) (s : Sid) : Bool :=
  match (p.sess s).pc with
  | .absent | .recvHandshake | .recvBitfield | .ended => false
  | .snapshot | .sendInterest | .bcastInterest | .haveInterest
  | .drainInterest | .setRequested _ | .countOwned _
  | .handle (.msgRequest _) | .handle (.msgPiece _ _) =>
      p.sh.own.setting.isNone
  | .requestNext => p.sh.own.setting.isNone && p.sh.mReq.isNone
  | .preempt | .relinquish | .finalRelinquish | .bcastLock _ =>
      p.sh.sc.m.isNone
  | .bcastWait _ t _ => decide ((p.sess t).pc ≠ .markReady)
  | .loop => (p.sess s).isDone || !(p.sess s).eq.isEmpty
  | .awaitTearDown => !(p.sess s).eq.isEmpty
  | _ => true

end CntPeer
