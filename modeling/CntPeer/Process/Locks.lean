import CntPeer.Foundation.LockOrder
import CntPeer.Session.State

/-!
# What the threads wait for

The bodies of all threads, cut down to the mutexes they take, the threads they
start and join, and the queue of sessions to be cleaned up.  A condition on
other data is a choice, a loop over `ss` visits any sessions, and a check that
may panic may stop the process.
-/

namespace CntPeer

open CntPeer.Foundation

inductive Thread where
  | main
  | acceptor
  | pnTimer
  | optTimer
  | gc
  | protocol (s : Sid)
  | scanner (s : Sid)
  deriving DecidableEq

inductive Mutex where
  | sc
  | bcast (s : Sid)
  | req
  | own
  | eq (s : Sid)
  | gcBq
  | cache
  | file
  | end_
  deriving DecidableEq

/-- Statements in which the sessions in `gc_bq` are handed over. -/
abbrev Code := Body Thread Mutex Sid

namespace Locks

def lockGuard (l : Mutex) (c : Code) : Code :=
  .lock .exclusive l :: (c ++ [.unlock l])

def sharedLock (l : Mutex) (c : Code) : Code :=
  .lock .shared l :: (c ++ [.unlock l])

/-- `cond.wait(ul, ..)`: asleep, the thread does not hold the mutex. -/
def condWait (l : Mutex) : Code := [.loop [.unlock l, .lock .exclusive l]]

def maybe (c : Code) : Code := [.choice [[], c]]

def check : Code := maybe [.stop]

def eachSession (f : Sid → Code) : Code := [.loop [.any f]]

def notifyOne : Code := [.choice [[]]]

-- `BlockingQueue`
def enq (l : Mutex) : Code := lockGuard l [] ++ notifyOne

def deq (l : Mutex) : Code := lockGuard l (condWait l)

def isEmpty (l : Mutex) : Code := lockGuard l []

-- `Connection`, through the buffers
def flush : Code := check

def receive : Code := check

-- `SyncPieceBitfield`; `owningAll` and `numOwned` read an atomic
def snapshot : Code := lockGuard .own []

def isOwned : Code := check ++ lockGuard .own []

def setOwned : Code := check ++ lockGuard .own []

def setRequested : Code := check ++ lockGuard .own []

def isRequested : Code := check ++ lockGuard .own []

/-- `*peer_own - self_own`; the lock of `*peer_own` does nothing, so
`std::scoped_lock` waits for the other one only. -/
def difference : Code := check ++ lockGuard .own []

namespace File

def readAt : Code := lockGuard .file (check ++ check)

def writeAt : Code :=
  [.choice [[.stop], lockGuard .file (check ++ check)]]

end File

namespace PieceRepository

def get : Code :=
  sharedLock .cache [] ++ maybe (File.readAt ++ lockGuard .cache [])

def save : Code := check ++ File.writeAt ++ lockGuard .cache []

end PieceRepository

namespace Session

def ackHave (s : Sid) : Code :=
  [.choice [enq (.eq s), lockGuard (.bcast s) (maybe (enq (.eq s)))]]

def choke (s : Sid) : Code := maybe (enq (.eq s))

def unchoke (s : Sid) : Code := maybe (enq (.eq s))

def destroy (s : Sid) : Code := [.join (.scanner s), .join (.protocol s)]

end Session

namespace SessionCollection

def pnAlgorithm : Code :=
  lockGuard .sc (maybe (eachSession Session.choke) ++
    eachSession Session.unchoke)

def optAlgorithm : Code :=
  lockGuard .sc
    (maybe ([.any Session.unchoke] ++ maybe [.any Session.choke]))

def tryPreempt (s : Sid) : Code :=
  lockGuard .sc (check ++ maybe (Session.unchoke s))

def relinquish (s : Sid) : Code :=
  lockGuard .sc (check ++
    maybe (Session.choke s ++ maybe [.any Session.unchoke]))

def broadcastHave : Code := lockGuard .sc (eachSession Session.ackHave)

/-- `newSession` starts the protocol thread of a session not there before. -/
def newSession : Code := lockGuard .sc [.spawnNew .protocol]

def notifyCleanUp (s : Sid) : Code := lockGuard .gcBq [.push s] ++ notifyOne

def deqGcBq (f : Sid → Code) : Code :=
  [.lock .exclusive .gcBq,
    .whileEmpty [.unlock .gcBq, .lock .exclusive .gcBq],
    .pop fun s => .unlock .gcBq :: f s]

def cleanUp : Code :=
  [.loop (deqGcBq fun s => lockGuard .sc (check ++ Session.destroy s))]

def wait : Code := lockGuard .end_ (condWait .end_)

def destroy : Code := .join .gc :: eachSession Session.destroy

end SessionCollection

namespace Session

open SessionCollection

def setup (s : Sid) : Code :=
  lockGuard (.bcast s) snapshot ++ flush ++ receive ++ check ++ difference ++
    flush ++ [.spawn (.scanner s)]

def requestNextIfPossible : Code :=
  lockGuard .req (difference ++ maybe setRequested) ++ maybe flush

def handleBcast : Code := difference ++ flush

def handle (s : Sid) : Code :=
  [.choice [
      -- `TimerChoke`, `TimerUnchoke`
      maybe flush, maybe flush,
      -- `BcastHave`
      handleBcast,
      -- `MsgChoke`, `MsgUnchoke`
      [], requestNextIfPossible,
      -- `MsgInterest`, `MsgNotInterest`
      tryPreempt s, maybe (relinquish s) ++ flush,
      -- `MsgHave`
      check ++ maybe (difference ++ maybe flush),
      -- `MsgRequest`
      isOwned ++ check ++ PieceRepository.get ++ flush,
      -- `MsgPiece`
      isRequested ++ check ++ PieceRepository.save ++ setOwned ++
        broadcastHave ++ maybe requestNextIfPossible,
      -- `MsgTearDown`
      [.stop]]]

def drain (s : Sid) : Code :=
  .loop (isEmpty (.eq s) ++ deq (.eq s) ++ maybe handleBcast) ::
    maybe (isEmpty (.eq s)) ++ flush ++
    maybe (deq (.eq s) ++ [.loop (deq (.eq s))])

def protocol (s : Sid) : Code :=
  setup s ++ [.loop (deq (.eq s) ++ handle s)] ++ drain s ++ relinquish s ++
    check ++ notifyCleanUp s

end Session

/-- It reads until the thread is cancelled, which happens in a read. -/
def scanLoop (s : Sid) : Code :=
  [.loop (receive ++ [.choice [enq (.eq s), [.stop]]])]

def setInterval (cb : Code) : Code := [.forever cb]

def startServer : Code :=
  check ++ [.forever (check ++ SessionCollection.newSession)]

def main : Code :=
  [.spawn .pnTimer, .spawn .optTimer, .spawn .gc, .spawn .acceptor,
      .loop (maybe SessionCollection.newSession)] ++
    SessionCollection.wait ++ SessionCollection.destroy ++ [.stop]

def body : Thread → Code
  | .main => main
  | .acceptor => startServer
  | .pnTimer => setInterval SessionCollection.pnAlgorithm
  | .optTimer => setInterval SessionCollection.optAlgorithm
  | .gc => SessionCollection.cleanUp
  | .protocol s => Session.protocol s
  | .scanner s => scanLoop s

abbrev Reachable (x : Threads Thread Mutex Sid) : Prop :=
  Foundation.Reachable (Threads.step body) (Threads.init .main (body .main)) x

end Locks

end CntPeer
