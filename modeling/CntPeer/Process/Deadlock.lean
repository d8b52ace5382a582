import Mathlib.Data.Fintype.EquivFin
import Mathlib.Order.Fin.Basic
import CntPeer.Process.Locks

/-!
# No deadlock

The mutexes are taken in the order `sc`, `m_bcast` and `m_req`, the mutex of
`self_own`, and last those under which no other is taken.  `cleanUp` joins the
protocol thread of a session while it holds `sc`: that thread has done its last
`relinquish` before it hands the session over.
-/

namespace CntPeer.Locks

open CntPeer.Foundation LockOrder

def rank : Mutex → Fin 7
  | .sc => 2
  | .bcast _ => 3
  | .req => 4
  | .own => 5
  | .eq _ | .gcBq | .cache | .file | .end_ => 6

/-- `main` waits for the end of others; a scanner takes the mutex of its queue
only. -/
def endRank : Thread → Fin 7
  | .main => 0
  | .acceptor | .pnTimer | .optTimer | .gc | .protocol _ => 1
  | .scanner _ => 5

def order : LockOrder Thread Mutex Sid (Fin 7) where
  rank := rank
  endRank := endRank
  retiree := .protocol

variable {t : Thread} {retired : Thread → Prop} {H : List Mutex} {l : Mutex}
  {c : Code} {s : Sid}

theorem keeps_maybe (h : order.Keeps t retired H c) :
    order.Keeps t retired H (maybe c) := by
  apply Keeps.choice
  intro d hd
  rcases List.mem_pair.mp hd with rfl | rfl
  · exact .nil
  · exact h

theorem keeps_check : order.Keeps t retired H check := keeps_maybe .stop

theorem follows_notifyOne {b : Bool} :
    order.Follows t retired H b notifyOne H b := by
  apply Follows.choice
  · intro d hd
    rcases List.mem_singleton.mp hd with rfl
    exact .nil
  · exact .nil

theorem keeps_eachSession {f : Sid → Code}
    (h : ∀ s, order.Keeps t retired H (f s)) :
    order.Keeps t retired H (eachSession f) :=
  .loop (.any h)

theorem keeps_lockGuard (hH : order.Below H (rank l)) (ht : endRank t < rank l)
    (h : order.Keeps t retired (l :: H) c) :
    order.Keeps t retired H (lockGuard l c) :=
  .lockGuard hH ht h

theorem keeps_condWait (hH : order.Below H (rank l))
    (ht : endRank t < rank l) :
    order.Keeps t retired (l :: H) (condWait l) :=
  .loop (.wait hH ht)

section Leaves

-- the mutexes under which no other is taken
variable (hl : rank l = 6) (hH : order.Below H 6) (ht : endRank t < 6)

include hl hH ht

theorem keeps_leaf (h : order.Keeps t retired (l :: H) c) :
    order.Keeps t retired H (lockGuard l c) := by
  rw [← hl] at hH ht
  exact keeps_lockGuard hH ht h

theorem keeps_enq : order.Keeps t retired H (enq l) :=
  (keeps_leaf hl hH ht .nil).append follows_notifyOne

theorem keeps_deq : order.Keeps t retired H (deq l) := by
  apply keeps_leaf hl hH ht
  rw [← hl] at hH ht
  exact keeps_condWait hH ht

theorem keeps_isEmpty : order.Keeps t retired H (isEmpty l) :=
  keeps_leaf hl hH ht .nil

end Leaves

theorem keeps_own (hH : order.Below H 5) (ht : endRank t < 5) :
    order.Keeps t retired H (lockGuard .own []) :=
  keeps_lockGuard hH ht .nil

theorem keeps_checkedOwn (hH : order.Below H 5) (ht : endRank t < 5) :
    order.Keeps t retired H (check ++ lockGuard .own []) :=
  keeps_check.append (keeps_own hH ht)

section Repository

variable (ht : endRank t < 6)

include ht

theorem keeps_readAt : order.Keeps t retired [] File.readAt :=
  keeps_leaf rfl below_nil ht (keeps_check.append keeps_check)

theorem keeps_writeAt : order.Keeps t retired [] File.writeAt := by
  apply Keeps.choice
  intro c hc
  rcases List.mem_pair.mp hc with rfl | rfl
  · exact .stop
  · exact keeps_leaf rfl below_nil ht (keeps_check.append keeps_check)

theorem keeps_get : order.Keeps t retired [] PieceRepository.get := by
  have hread : order.Keeps t retired [] (sharedLock .cache []) :=
    .lockGuard below_nil ht .nil
  have hwrite : order.Keeps t retired [] (lockGuard .cache []) :=
    keeps_leaf rfl below_nil ht .nil
  exact hread.append (keeps_maybe ((keeps_readAt ht).append hwrite))

theorem keeps_save : order.Keeps t retired [] PieceRepository.save :=
  (keeps_check.append (keeps_writeAt ht)).append
    (keeps_leaf rfl below_nil ht .nil)

end Repository

section Collection

theorem below_sc {r : Fin 7} (hr : 2 < r) : order.Below [.sc] r :=
  below_nil.cons hr

variable (ht : endRank t < 2)

include ht

theorem keeps_choke : order.Keeps t retired [.sc] (Session.choke s) :=
  keeps_maybe (keeps_enq rfl (below_sc (by decide)) (ht.trans (by decide)))

theorem keeps_unchoke : order.Keeps t retired [.sc] (Session.unchoke s) :=
  keeps_choke ht

theorem keeps_ackHave : order.Keeps t retired [.sc] (Session.ackHave s) := by
  have hsc : order.Below [.sc] (rank (.bcast s)) :=
    below_sc (show (2 : Fin 7) < 3 by decide)
  have hrank : endRank t < rank (.bcast s) :=
    ht.trans (show (2 : Fin 7) < 3 by decide)
  have hbcast : order.Below [.bcast s, .sc] 6 :=
    (below_sc (by decide)).cons (show (3 : Fin 7) < 6 by decide)
  apply Keeps.choice
  intro c hc
  rcases List.mem_pair.mp hc with rfl | rfl
  · exact keeps_enq rfl (below_sc (by decide)) (ht.trans (by decide))
  · apply keeps_lockGuard hsc hrank
    exact keeps_maybe (keeps_enq rfl hbcast (ht.trans (by decide)))

theorem keeps_sc (h : order.Keeps t retired [.sc] c) :
    order.Keeps t retired [] (lockGuard .sc c) :=
  keeps_lockGuard below_nil ht h

theorem keeps_pnAlgorithm :
    order.Keeps t retired [] SessionCollection.pnAlgorithm := by
  apply keeps_sc ht
  apply Keeps.append
  · exact keeps_maybe (keeps_eachSession fun s => keeps_choke ht)
  · exact keeps_eachSession fun s => keeps_unchoke ht

theorem keeps_optAlgorithm :
    order.Keeps t retired [] SessionCollection.optAlgorithm := by
  apply keeps_sc ht
  apply keeps_maybe
  apply Keeps.append
  · exact .any fun _ => keeps_unchoke ht
  · exact keeps_maybe (.any fun _ => keeps_choke ht)

theorem keeps_tryPreempt :
    order.Keeps t retired [] (SessionCollection.tryPreempt s) :=
  keeps_sc ht (keeps_check.append (keeps_maybe (keeps_unchoke ht)))

theorem keeps_relinquish :
    order.Keeps t retired [] (SessionCollection.relinquish s) := by
  apply keeps_sc ht
  apply keeps_check.append
  apply keeps_maybe
  apply (keeps_choke ht).append
  exact keeps_maybe (.any fun _ => keeps_unchoke ht)

theorem keeps_broadcastHave :
    order.Keeps t retired [] SessionCollection.broadcastHave :=
  keeps_sc ht (keeps_eachSession fun _ => keeps_ackHave ht)

theorem keeps_newSession :
    order.Keeps t retired [] SessionCollection.newSession :=
  keeps_sc ht .spawnNew

end Collection

section Protocol

theorem endRank_protocol {r : Fin 7} (hr : 1 < r) : endRank (.protocol s) < r :=
  hr

theorem keeps_difference :
    order.Keeps (.protocol s) retired [] difference :=
  keeps_checkedOwn below_nil (endRank_protocol (by decide))

theorem keeps_requestNextIfPossible :
    order.Keeps (.protocol s) retired [] Session.requestNextIfPossible := by
  have hreq : order.Below [.req] 5 :=
    below_nil.cons (show (4 : Fin 7) < 5 by decide)
  have hrank : endRank (.protocol s) < rank .req :=
    endRank_protocol (by decide)
  have hown : order.Keeps (.protocol s) retired [.req]
      (check ++ lockGuard .own []) :=
    keeps_checkedOwn hreq (endRank_protocol (by decide))
  apply Keeps.append
  · apply keeps_lockGuard below_nil hrank
    exact hown.append (keeps_maybe hown)
  · exact keeps_maybe keeps_check

theorem keeps_handleBcast :
    order.Keeps (.protocol s) retired [] Session.handleBcast :=
  keeps_difference.append keeps_check

theorem keeps_setup :
    order.Keeps (.protocol s) retired [] (Session.setup s) := by
  have hbcast : order.Below [.bcast s] 5 :=
    below_nil.cons (show (3 : Fin 7) < 5 by decide)
  have hrank : endRank (.protocol s) < rank (.bcast s) :=
    show (1 : Fin 7) < 3 by decide
  have hsnapshot : order.Keeps (.protocol s) retired []
      (lockGuard (.bcast s) snapshot) := by
    apply keeps_lockGuard below_nil hrank
    exact keeps_own hbcast (endRank_protocol (by decide))
  exact (((((hsnapshot.append keeps_check).append keeps_check).append
    keeps_check).append keeps_difference).append keeps_check).append .spawn

theorem keeps_handle :
    order.Keeps (.protocol s) retired [] (Session.handle s) := by
  have hsc : endRank (.protocol s) < 2 := endRank_protocol (by decide)
  have hleaf : endRank (.protocol s) < 6 := hsc.trans (by decide)
  have hown : order.Keeps (.protocol s) retired []
      (check ++ lockGuard .own []) := keeps_difference
  have hflush : order.Keeps (.protocol s) retired [] (maybe flush) :=
    keeps_maybe keeps_check
  apply Keeps.choice
  intro c hc
  simp only [List.mem_cons, List.not_mem_nil, or_false] at hc
  rcases hc with rfl | rfl | rfl | rfl | rfl | rfl | rfl | rfl | rfl | rfl | rfl
  · exact hflush
  · exact hflush
  · exact keeps_handleBcast
  · exact .nil
  · exact keeps_requestNextIfPossible
  · exact keeps_tryPreempt hsc
  · exact (keeps_maybe (keeps_relinquish hsc)).append keeps_check
  · exact keeps_check.append (keeps_maybe (keeps_difference.append hflush))
  · exact ((hown.append keeps_check).append (keeps_get hleaf)).append
      keeps_check
  · exact ((((hown.append keeps_check).append (keeps_save hleaf)).append
      hown).append (keeps_broadcastHave hsc)).append
        (keeps_maybe keeps_requestNextIfPossible)
  · exact .stop

theorem keeps_drain :
    order.Keeps (.protocol s) retired [] (Session.drain s) := by
  have hleaf : endRank (.protocol s) < 6 := endRank_protocol (by decide)
  have hdeq : order.Keeps (.protocol s) retired [] (deq (.eq s)) :=
    keeps_deq rfl below_nil hleaf
  have hempty : order.Keeps (.protocol s) retired [] (isEmpty (.eq s)) :=
    keeps_isEmpty rfl below_nil hleaf
  have hloop : order.Keeps (.protocol s) retired []
      [.loop (isEmpty (.eq s) ++ deq (.eq s) ++ maybe Session.handleBcast)] :=
    .loop ((hempty.append hdeq).append (keeps_maybe keeps_handleBcast))
  exact hloop.append (((keeps_maybe hempty).append keeps_check).append
    (keeps_maybe (hdeq.append (.loop hdeq))))

theorem follows_notifyCleanUp :
    order.Follows (.protocol s) retired [] false
      (SessionCollection.notifyCleanUp s) [] true := by
  have hrank : endRank (.protocol s) < rank .gcBq :=
    endRank_protocol (by decide)
  have hpush : order.Follows (.protocol s) retired [] false
      (lockGuard .gcBq [.push s]) [] true :=
    .lockGuard below_nil hrank (.push rfl .nil)
  exact hpush.append follows_notifyOne

theorem follows_protocol :
    order.Follows (.protocol s) retired [] false (Session.protocol s) []
      true := by
  have hloop : order.Keeps (.protocol s) retired []
      [.loop (deq (.eq s) ++ Session.handle s)] :=
    .loop (Keeps.append (keeps_deq rfl below_nil
      (endRank_protocol (by decide))) keeps_handle)
  have hrelinquish : order.Keeps (.protocol s) retired []
      (SessionCollection.relinquish s) :=
    keeps_relinquish (endRank_protocol (by decide))
  have hcheck : order.Keeps (.protocol s) retired [] check := keeps_check
  have hall := ((keeps_setup.append hloop).append keeps_drain).append
    hrelinquish
  exact Follows.append (hall.append hcheck) follows_notifyCleanUp

end Protocol

theorem keeps_scanLoop : order.Keeps (.scanner s) retired [] (scanLoop s) := by
  have henq : order.Keeps (.scanner s) retired [] (enq (.eq s)) :=
    keeps_enq rfl below_nil (show (5 : Fin 7) < 6 by decide)
  apply Keeps.loop
  apply keeps_check.append
  apply Keeps.choice
  intro c hc
  rcases List.mem_pair.mp hc with rfl | rfl
  · exact henq
  · exact .stop

theorem keeps_destroy (hs : retired (.protocol s)) :
    order.Keeps .gc retired [.sc] (Session.destroy s) := by
  have hscanner : order.Keeps .gc retired [.sc] [.join (.scanner s)] :=
    .join (.inr ⟨below_sc (show (2 : Fin 7) < 5 by decide),
      show (1 : Fin 7) < 5 by decide⟩)
  exact hscanner.append (.join (.inl hs))

theorem keeps_cleanUp :
    order.Keeps .gc retired [] SessionCollection.cleanUp := by
  apply Keeps.loop
  have hgc : endRank .gc < 6 := show (1 : Fin 7) < 6 by decide
  apply Follows.lock below_nil hgc
  apply Follows.whileEmpty (Keeps.wait below_nil hgc)
  refine Follows.pop (fun s => ?_) .nil
  apply Follows.unlock
  have hsc : endRank .gc < 2 := show (1 : Fin 7) < 2 by decide
  apply keeps_sc hsc
  exact keeps_check.append (keeps_destroy (.inr rfl))

theorem keeps_main : order.Keeps .main retired [] main := by
  have hsc : endRank .main < 2 := show (0 : Fin 7) < 2 by decide
  have hjoin : ∀ u, 0 < endRank u →
      order.Keeps .main retired [] [.join u] :=
    fun u hu => .join (.inr ⟨below_nil, hu⟩)
  have hsession : ∀ s, order.Keeps .main retired [] (Session.destroy s) :=
    fun s => (hjoin (.scanner s) (show (0 : Fin 7) < 5 by decide)).append
      (hjoin (.protocol s) (show (0 : Fin 7) < 1 by decide))
  have hdestroy : order.Keeps .main retired [] SessionCollection.destroy :=
    (hjoin .gc (show (0 : Fin 7) < 1 by decide)).append
      (keeps_eachSession hsession)
  have hwait : order.Keeps .main retired [] SessionCollection.wait :=
    keeps_deq rfl below_nil (show (0 : Fin 7) < 6 by decide)
  have hsessions : order.Keeps .main retired []
      [.loop (maybe SessionCollection.newSession)] :=
    .loop (keeps_maybe (keeps_newSession hsc))
  have hstart : order.Keeps .main retired []
      [.spawn .pnTimer, .spawn .optTimer, .spawn .gc, .spawn .acceptor,
        .loop (maybe SessionCollection.newSession)] :=
    Follows.spawn (Follows.spawn (Follows.spawn (Follows.spawn hsessions)))
  exact ((hstart.append hwait).append hdestroy).append .stop

theorem ends_of_keeps (h : order.Keeps t retired [] c) :
    order.Ends t retired [] false c :=
  ⟨false, h⟩

theorem ends_body (t : Thread) :
    order.Ends t (fun _ => False) [] false (body t) := by
  cases t with
  | main => exact ends_of_keeps keeps_main
  | acceptor =>
      apply ends_of_keeps
      exact keeps_check.append (.forever (keeps_check.append
        (keeps_newSession (show (1 : Fin 7) < 2 by decide))))
  | pnTimer =>
      apply ends_of_keeps
      exact .forever (keeps_pnAlgorithm (show (1 : Fin 7) < 2 by decide))
  | optTimer =>
      apply ends_of_keeps
      exact .forever (keeps_optAlgorithm (show (1 : Fin 7) < 2 by decide))
  | gc => exact ends_of_keeps keeps_cleanUp
  | protocol s => exact ⟨true, follows_protocol⟩
  | scanner s => exact ends_of_keeps keeps_scanLoop

variable {x : Threads Thread Mutex Sid}

/-- No reachable state contains a set of threads each of which waits for a mutex
that another one of them owns, or for its end. -/
theorem no_deadlock (h : Reachable x) (S : Set Thread) : ¬ x.Deadlock S := by
  obtain ⟨held, ret, hobeys⟩ := obeys_reachable ends_body h
  exact hobeys.not_deadlock S

/-- A session has handed itself over and still has to notify when `cleanUp`,
which holds `sc`, waits for its end; `main` waits for `sc`. -/
def waiting : Threads Thread Mutex Sid :=
  (run (Threads.step body) (Threads.init .main (body .main))
    ([0, 0, 0, 0, 1, 1, 0, 0, 0, 1, 1].map (Thread.main, ·) ++
      (List.replicate 25 0).map (Thread.protocol 0, ·) ++
      [(.scanner 0, 0)] ++
      [1, 0, 0, 0, 0, 0, 0, 0].map (Thread.gc, ·))).get (by decide)

theorem no_deadlock_waiting :
    waiting.WaitsFor .main .gc ∧ waiting.WaitsFor .gc (.protocol 0) ∧
      ¬ waiting.Deadlock {.main, .gc, .protocol 0} := by
  have hmain : waiting.WaitsFor .main .gc :=
    .lock rfl ⟨.exclusive, List.mem_singleton.mpr rfl⟩
  have hgc : waiting.WaitsFor .gc (.protocol 0) := .join rfl rfl
  exact ⟨hmain, hgc, no_deadlock (reachable_get _) _⟩

end CntPeer.Locks
