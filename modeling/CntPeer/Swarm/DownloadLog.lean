import CntPeer.Process.DownloadLog
import CntPeer.Swarm.Safety

/-!
# The download log in a swarm

In a swarm a piece is accepted once, so the log of a peer that starts without the
file tells how it got the pieces.
-/

namespace CntPeer

open CntPeer.Foundation

namespace Net

variable {Peer : Type*} [DecidableEq Peer] {net : Net Peer} {w w' : Swarm Peer}
  {cfg : Peer → Config} {q : Peer} {s : Sid} {i : Nat}

theorem exclusive_reachable (h : net.Reachable cfg w) (q : Peer) :
    (w.proc q).Exclusive := by
  have hlink := linked_reachable h
  have hcon := conserved_reachable h
  have howner : ∀ {s i}, ((w.proc q).sess s).pc.accepting = some i →
      net.owner s = q ∧ (net.sess w s).pc.accepting = some i := by
    intro s i hacc
    have hs := hlink.attached q s fun hpc => by
      rw [hpc] at hacc
      cases hacc
    exact ⟨hs, by rwa [sess_of_owner hs]⟩
  constructor
  · intro s i hacc
    obtain ⟨rfl, hacc⟩ := howner hacc
    exact accepting_requested hcon hacc
  · intro s t i hs ht
    obtain ⟨hs, hacc⟩ := howner hs
    obtain ⟨ht, hacc'⟩ := howner ht
    exact (hcon q i).unique hs ht
      (tokens_of_asking (asking_of_holds (by simp [Pc.holds, hacc])))
      (tokens_of_asking (asking_of_holds (by simp [Pc.holds, hacc'])))

theorem entered_reachable (hfile : (cfg q).hasFile = false) (h : net.Reachable cfg w) :
    (w.proc q).Entered (cfg q).nPieces ∧ (w.proc q).LoggedOnce := by
  refine h.invariant (I := fun w => (w.proc q).Entered (cfg q).nPieces ∧
    (w.proc q).LoggedOnce) ⟨Proc.entered_init hfile, Proc.loggedOnce_init (cfg q)⟩ ?_
  rintro w ⟨r, a⟩ w' hr ⟨hentered, hlogged⟩ - hstep
  by_cases hrq : r = q
  · subst r
    have hx := exclusive_reachable hr q
    have hown := Proc.owning_reachable ((linked_reachable hr).procs q)
    have hproc := proc_self hstep
    exact ⟨hentered.step hx hown hlogged hproc,
      hlogged.step hx.requested hown (hown.step hproc) hproc⟩
  · rw [proc_of_ne hstep (Ne.symm hrq)]
    exact ⟨hentered, hlogged⟩

/--
The completion of the file is logged at most once, and after one entry for each
piece.
-/
theorem completion_logged (hfile : (cfg q).hasFile = false) (h : net.Reachable cfg w) :
    (w.proc q).sh.log.count .fileDownloaded ≤ 1 ∧
      ∀ pre post, (w.proc q).sh.log = pre ++ .fileDownloaded :: post →
        (downloads pre).length = (cfg q).nPieces ∧
          (downloads pre).Perm (List.range (cfg q).nPieces) := by
  obtain ⟨hentered, hlogged⟩ := entered_reachable hfile h
  refine ⟨hlogged.once, fun pre post hsplit => ?_⟩
  have hperm := hentered.last pre post hsplit
  exact ⟨hperm.length_eq.trans List.length_range, hperm⟩

/-- In the steps of `q`, no session reads the counter for its entry while another
one has read it and not yet incremented it. -/
def CountsAlone (q : Peer) (w : Swarm Peer) (l : Peer × Act) : Prop :=
  l.1 = q → (w.proc q).CountsAlone l.2

theorem numbered_reaches (hfile : (cfg q).hasFile = false)
    (h : Reaches net.step (CountsAlone q) (start cfg) w) : (w.proc q).Numbered := by
  refine h.invariant (I := fun w => (w.proc q).Numbered) (Proc.numbered_init hfile) ?_
  rintro w ⟨r, a⟩ w' hr hnumbered hok hstep
  by_cases hrq : r = q
  · subst r
    have hproc := (linked_reachable hr.reachable).procs q
    exact hnumbered.step (exclusive_reachable hr.reachable q)
      (Proc.lifecycle_reachable hproc) (Proc.owning_reachable hproc) (hok rfl)
      (proc_self hstep)
  · rw [proc_of_ne hstep (Ne.symm hrq)]
    exact hnumbered

/--
When no session reads the counter in the window of another one, the entries for
the pieces report one piece after the other.
-/
theorem downloads_numbered (hfile : (cfg q).hasFile = false)
    (h : Reaches net.step (CountsAlone q) (start cfg) w) :
    ∀ k n, (reported (w.proc q).sh.log)[k]? = some n → n = k + 1 := by
  obtain ⟨m, hm⟩ := (numbered_reaches hfile h).reported
  intro k n hk
  rw [hm] at hk
  obtain ⟨hlt, heq⟩ := List.getElem?_eq_some_iff.mp hk
  rw [List.getElem_range'] at heq
  omega

instance (w : Swarm Peer) (l : Peer × Act) : Decidable (CountsAlone q w l) :=
  inferInstanceAs (Decidable (_ → _))

end Net

/-- A leech with a connection to each of two seeds; its sessions are 0 and 2. -/
def starNet : Net Nat where
  owner s := if s % 2 = 0 then 0 else s
  mate := across
  mate_mate := across_across

def starCfg : Nat → Config
  | 0 => { Proc.leech with selfPeerId := 0, fileSize := 2 }
  | q =>
      { Proc.seed with
        selfPeerId := q, file := [7, 8], fileSize := 2, totalPeerCount := 3 }

def starSess (s : Sid) (a : SessionAct) : Nat × Act :=
  (starNet.owner s, .session s a)

def starThread (s : Sid) (n : Nat) : List (Nat × Act) :=
  List.replicate n (starSess s (.thread {}))

def starRequest (s : Sid) : List (Nat × Act) :=
  starSess (s + 1) (.create s epidNoPreference) :: starThread (s + 1) 3 ++
    starSess s (.create s epidNoPreference) :: starThread s 3 ++
    [starSess (s + 1) (.recvHandshake 0),
      starSess (s + 1) (.recvBitfield (.bitfieldMsg [.absent, .absent])),
      starSess s (.recvHandshake (s + 1)),
      starSess s (.recvBitfield (.bitfieldMsg [.owned, .owned]))] ++
    starThread (s + 1) 2 ++ starThread s 2 ++
    starSess (s + 1) (.scan .interestedMsg) :: starThread (s + 1) 5 ++
    starSess s (.scan .notInterestedMsg) :: starThread s 2 ++
    starSess s (.scan .unchokeMsg) :: starThread s 5 ++
    starSess (s + 1) (.scan .chokeMsg) :: starThread (s + 1) 2

def starPiece (s : Sid) (i : Nat) (d : Piece) : List (Nat × Act) :=
  starSess (s + 1) (.scan (.requestMsg i)) :: starThread (s + 1) 6 ++
    starSess s (.scan (.pieceMsg i d)) :: starThread s 5

def inTurn : Swarm Nat :=
  (run (checkedStep starNet.step (Net.CountsAlone 0)) (Net.start starCfg)
    (starRequest 0 ++ starRequest 2 ++ starPiece 0 0 [7] ++ starThread 0 3 ++
      starPiece 2 1 [8] ++ starThread 2 3)).get (by decide +kernel)

theorem inTurn_reaches :
    Reaches starNet.step (Net.CountsAlone 0) (Net.start starCfg) inTurn :=
  reaches_get _

theorem downloads_numbered_inTurn :
    (reported (inTurn.proc 0).sh.log).length = 2 ∧
      ∀ k n, (reported (inTurn.proc 0).sh.log)[k]? = some n → n = k + 1 :=
  ⟨by decide +kernel, Net.downloads_numbered rfl inTurn_reaches⟩

theorem completion_logged_inTurn :
    ∃ pre, (inTurn.proc 0).sh.log = pre ++ [.fileDownloaded] ∧
      (downloads pre).Perm (List.range 2) := by
  have hlog : (inTurn.proc 0).sh.log =
      [.pieceDownloaded (some 1) 0 1, .pieceDownloaded (some 3) 1 2] ++
        [.fileDownloaded] := by
    decide +kernel
  have hfile : (starCfg 0).hasFile = false := rfl
  have h := Net.completion_logged hfile inTurn_reaches.reachable
  exact ⟨_, hlog, (h.2 _ [] hlog).2⟩

def bothRead : Swarm Nat :=
  (run starNet.step (Net.start starCfg)
    (starRequest 0 ++ starRequest 2 ++ starPiece 0 0 [7] ++ starPiece 2 1 [8] ++
      starThread 0 1 ++ starThread 2 1)).get (by decide +kernel)

/-- Two entries report the same number. -/
theorem downloads_misnumbered :
    ¬ ∀ w, starNet.Reachable starCfg w →
      ∀ k n, (reported (w.proc 0).sh.log)[k]? = some n → n = k + 1 := by
  intro h
  have hnumber := h bothRead (reachable_get _) 1 1 (by decide +kernel)
  cases hnumber

end CntPeer
