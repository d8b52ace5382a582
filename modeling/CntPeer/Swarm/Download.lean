import CntPeer.Swarm.Completion

/-!
# A download

A process that starts with the file and has a preferred slot for each of its
peers serves them all.  So a full mesh with such a process finishes, in whatever
order its threads take their steps.
-/

namespace CntPeer

open CntPeer.Foundation

namespace Proc

variable {p p' : Proc} {s t : Sid} {cfg : Config} {a : Act}

theorem roomy_keeping {cache : List CacheEntry} :
    Roomy p (a.keeping cache) ↔ Roomy p a := by
  cases a with
  | session s b => cases b <;> rfl
  | _ => rfl

/-- The statuses of a process that has every piece, and its bitfields. -/
structure Full (p : Proc) : Prop where
  own : ∀ i, i < p.sh.own.sv.length → p.sh.own.sv[i]? = some .owned
  told : ∀ s sv, (p.sess s).bfMsg = some sv →
    ∀ i, i < sv.length → sv[i]? = some .owned

theorem Full.snapshot (h : Full p) {i : Nat} (hi : i < p.sh.own.snapshot.length) :
    p.sh.own.snapshot[i]? = some .owned := by
  rw [SyncPieceBitfield.snapshot, List.length_map] at hi
  rw [SyncPieceBitfield.snapshot, List.getElem?_map, h.own i hi]
  rfl

theorem bfMsg_sessionEffect {act : SessionAct} (hen : p.sessionEnabled s act = true) :
    (p.sessionEffect s act).after.bfMsg = (p.sess s).bfMsg ∨
      (p.sessionEffect s act).after.bfMsg = some p.sh.own.snapshot := by
  have hact := actCases hen
  generalize p.sessionEffect s act = e at hact
  cases hact with
  | thread c => exact bfMsg_protocol.imp_right And.right
  | setup stands goes quiet keeps => exact .inl keeps.bfMsg
  | idle after =>
      obtain ⟨n, hafter⟩ := after
      rw [hafter]
      exact .inl rfl

theorem Full.step {n : Nat} (hn : Owning n p) (h : Full p)
    (hstep : p.step a = some p') : Full p' where
  own i hi := by
    have hadv := hn.advances hstep
    exact hadv.owned i (h.own i (hadv.length ▸ hi))
  told := by
    refine forall_sess (I := fun x => ∀ sv, x.bfMsg = some sv →
      ∀ i, i < sv.length → sv[i]? = some .owned) h.told (fun _ _ hx => hx) ?_ hstep
    intro s act hen hs sv hsv i hi
    rcases bfMsg_sessionEffect hen with hbf | hbf
    · exact hs sv (hbf.symm.trans hsv) i hi
    · rw [hbf] at hsv
      cases hsv
      exact h.snapshot hi

/-- A process that is started with the file has every piece and says so. -/
theorem full_reachable (h : Reachable cfg p) (hfile : cfg.hasFile = true) : Full p := by
  refine h.invariant (I := Full) ?_ fun _ _ _ hr ih _ hstep =>
    ih.step (owning_reachable hr) hstep
  refine ⟨fun i hi => ?_, fun s sv hsv => by cases hsv⟩
  simp only [init, SyncPieceBitfield.init, hfile] at hi ⊢
  simp_all

end Proc

namespace Net

variable {Peer : Type*} {net : Net Peer} {w w' : Swarm Peer} {q r : Peer}
  {a : Act} {s : Sid} {cfg : Peer → Config} {F : List UInt8} {size : Nat}

theorem view_full (hlink : Linked net cfg w)
    (hfile : (cfg (net.owner (net.mate s))).hasFile = true)
    (hstage : 6 ≤ (net.sess w s).pc.stage) (hle : (net.sess w s).pc.stage ≤ 8)
    {i : Nat} (hi : i < (net.sess w s).peerSv.length) :
    (net.sess w s).peerSv[i]? = some .owned := by
  have hviewed := Proc.viewed_reachable (hlink.procs (net.owner s)) s
  obtain ⟨sv, hsv⟩ := Proc.bitfield_handled (hlink.procs (net.owner s)) s hstage
  refine hviewed.complete hle i _ hsv (decide_eq_true ?_)
  have hsent := hlink.written (List.mem_append_left _ hsv)
  have hmate := hlink.procs (net.owner (net.mate s))
  refine (Proc.full_reachable hmate hfile).told _ sv
    (Proc.bitfield_written hmate hsent) i ?_
  rwa [← hviewed.length sv hsv]

theorem ownsAll_full (hlink : Linked net cfg w) (hfile : (cfg q).hasFile = true) :
    OwnsAll w q :=
  (Proc.full_reachable (hlink.procs q) hfile).own

/-- A HAVE of such a process tells nothing new, so a request is outstanding when
it is handled. -/
theorem asks_full (hlink : Linked net cfg w)
    (hfile : (cfg (net.owner (net.mate s))).hasFile = true)
    (hchain : Chained (w.proc (net.owner s)).sh.own.sv (net.sess w s))
    (b : SessionAct) : Proc.AsksOnHave (w.proc (net.owner s)) (.session s b) := by
  cases b with
  | thread c =>
      simp only [Proc.AsksOnHave]
      split
      · rename_i j hpc
        have hpc' : (net.sess w s).pc = .handle (.msgHave j) := hpc
        intro hrange hunch habs
        have hstage : (net.sess w s).pc.stage = 8 := congrArg Pc.stage hpc'
        refine hchain.alive hstage.le (by rw [hpc']; rfl) hunch j.toNat ?_ habs
        obtain ⟨i, rfl, hi⟩ := checkRange_iff.mp hrange
        exact view_full hlink hfile (by omega) hstage.le hi
      · trivial
  | _ => trivial

/-- No step of `q` takes the room of its peers. -/
def RoomyAt (q : Peer) (w : Swarm Peer) (l : Peer × Act) : Prop :=
  l.1 = q → Proc.Roomy (w.proc q) l.2

theorem roomyAt_of_ticks (hticks : a.ticks = false) : RoomyAt q w (r, a) := by
  rintro -
  cases a with
  | pnTick _ | optTick _ => cases hticks
  | _ => trivial

theorem FullMesh.of_created [Fintype Peer] (h : net.FullMesh cfg w)
    (hsame : ∀ s, (net.sess w' s).pc = .absent ↔ (net.sess w s).pc = .absent) :
    net.FullMesh cfg w' where
  count := h.count
  apart s hs := h.apart s (by rwa [Ne, ← hsame s])
  once s t hs ht := h.once s t (by rwa [Ne, ← hsame s]) (by rwa [Ne, ← hsame t])
  met s hs := by
    rw [Ne, hsame]
    exact h.met s (by rwa [Ne, ← hsame s])
  all q r hr := by
    obtain ⟨s, ho, hpc, hs⟩ := h.all q r hr
    exact ⟨s, ho, by rwa [Ne, hsame s], hs⟩

variable [DecidableEq Peer]

def Supplied (net : Net Peer) (q : Peer) (w : Swarm Peer) : Prop :=
  ∀ s, net.owner (net.mate s) = q →
    Chained (w.proc (net.owner s)).sh.own.sv (net.sess w s)

theorem Supplied.step (hlink : Linked net cfg w) (hfile : (cfg q).hasFile = true)
    (h : net.Supplied q w) (hstep : net.step w (r, a) = some w') : net.Supplied q w' := by
  rintro s rfl
  by_cases hs : net.owner s = r
  · subst hs
    refine Proc.chained_step_at (Proc.owning_reachable (hlink.procs _)) (h s rfl) ?_
      (proc_self hstep)
    rintro act rfl
    exact asks_full hlink hfile (h s rfl) act
  · rw [sess, proc_of_ne hstep hs]
    exact h s rfl

theorem supplied_reachable (h : net.Reachable cfg w) (hfile : (cfg q).hasFile = true) :
    net.Supplied q w :=
  h.invariant (I := net.Supplied q) (fun _ _ => ⟨nofun, nofun, nofun, nofun⟩)
    fun _ _ _ hr ih _ hstep => ih.step (linked_reachable hr) hfile hstep

instance (q : Peer) (w : Swarm Peer) (l : Peer × Act) : Decidable (RoomyAt q w l) :=
  inferInstanceAs (Decidable (_ → _))

/-- Whoever lacks a piece is interested in a process that has them all, and says
so. -/
theorem Resting.asks_seed (h : net.Resting w) (hr : net.Reachable cfg w)
    (hrun : Running w) (hfile : (cfg (net.owner (net.mate s))).hasFile = true)
    (here : (net.sess w s).pc = .loop) (there : (net.sess w (net.mate s)).pc = .loop)
    (hlacks : ¬OwnsAll w (net.owner s)) :
    net.Offers w (net.mate s) ∧
      (net.sess w (net.mate s)).peerInterest = .interested := by
  have hlink := linked_reachable hr
  have hlate : 7 ≤ (net.sess w s).pc.stage :=
    le_of_le_of_eq (by decide) (congrArg Pc.stage here).symm
  have hoffers : net.Offers w (net.mate s) := by
    simp only [OwnsAll, not_forall] at hlacks
    obtain ⟨i, hi, hown⟩ := hlacks
    refine ⟨i, ownsAll_full hlink hfile i ?_, by rwa [net.mate_mate]⟩
    rw [← hlink.peerSv_length (by omega)]
    exact hi.trans_eq ((Proc.honest_reachable (hlink.procs _) s).size hlate).symm
  refine ⟨hoffers, ?_⟩
  rcases h.told_interest hlink (conserved_reachable hr) hrun here
    with ⟨hint, -⟩ | ⟨-, hno⟩
  · have hheard := h.handled hlink hrun (.inl there)
    rw [net.mate_mate] at hheard
    refine (Proc.heeded_reachable (hlink.procs _) (net.mate s)
      (congrArg Pc.stage there).le).trans ?_
    exact congrArg interestOf (hheard ▸ hint)
  · exact absurd hoffers hno

/-- A process with the file and room for everyone leaves nobody it is connected to
without a piece. -/
theorem Resting.served (hrest : net.Resting w)
    (h : Reaches net.step (RoomyAt q) (start cfg) w) (hrun : Running w)
    (hfile : (cfg q).hasFile = true)
    (hfew : Proc.AtMost (cfg q).numPn (w.proc q))
    (hq : net.owner (net.mate s) = q) (hpc : (net.sess w s).pc ≠ .absent)
    (hmate : (net.sess w (net.mate s)).pc ≠ .absent) :
    OwnsAll w (net.owner s) := by
  subst hq
  have hr := h.reachable
  have hlink := linked_reachable hr
  cases hrest.ends hlink hrun s with
  | unmet here there one => exact absurd (one.resolve_left hpc) hmate
  | parted here there all => exact all.1
  | talking here there lacks =>
      by_contra hlacks
      obtain ⟨hoffers, hint⟩ := hrest.asks_seed hr hrun hfile here there hlacks
      have hquiet := (pending_of_idle (hrest.idle hlink hrun _) (.inl there)).1
      have hunch := (Proc.unchoked_of_interested (proc_reaches h) hfew there
        (by rw [sess] at hquiet; simp [hquiet]) hint).2
      exact hrest.choked hr hrun (supplied_reachable hr hfile s rfl) here hoffers hunch

/--
In an honest swarm at rest everyone who is connected to a process that started
with the file has it too, if that process had a preferred slot for each of its
sessions.
-/
theorem seed_serves (hc : Common F size cfg)
    (h : Reaches net.step (RoomyAt q) (start cfg) w) (hrun : Running w)
    (hrest : net.Resting w) (hfile : (cfg q).hasFile = true)
    (hfew : Proc.AtMost (cfg q).numPn (w.proc q))
    (hq : net.owner (net.mate s) = q) (hpc : (net.sess w s).pc ≠ .absent)
    (hmate : (net.sess w (net.mate s)).pc ≠ .absent) :
    OwnsAll w (net.owner s) ∧ (w.proc (net.owner s)).sh.repo.file = F := by
  have hall := hrest.served h hrun hfile hfew hq hpc hmate
  exact ⟨hall, file_of_ownsAll hc h.reachable hall⟩

/-! ### Progress -/

theorem FullMesh.step [Fintype Peer] (h : net.FullMesh cfg w)
    (hlink : Linked net cfg w) (hcreate : a.creates = false)
    (hstep : net.step w (q, a) = some w') : net.FullMesh cfg w' := by
  refine h.of_created fun s => ?_
  by_cases hs : net.owner s = q
  · subst hs
    exact Proc.absent_step (Proc.lifecycle_reachable (hlink.procs _)) hcreate
      (proc_self hstep)
  · rw [sess, sess, proc_of_ne hstep hs]

/-- The steps of a swarm whose drains start settled and where `q` has room. -/
def Orderly (q : Peer) (w : Swarm Peer) (l : Peer × Act) : Prop :=
  DrainsStartSettled w l ∧ RoomyAt q w l

instance (q : Peer) (w : Swarm Peer) (l : Peer × Act) : Decidable (Orderly q w l) :=
  inferInstanceAs (Decidable (_ ∧ _))

omit [DecidableEq Peer] in
theorem blind_orderly : Blind (Orderly q) :=
  fun w r a cache h =>
    ⟨blind_settled w r a cache h.1, fun hr => Proc.roomy_keeping.mpr (h.2 hr)⟩

theorem orderly_of_run {as : List (Peer × Act)}
    (hrun : run (checkedStep net.step DrainsStartSettled) (start cfg) as = some w)
    (has : ∀ l ∈ as, l.2.ticks = false) :
    Reaches net.step (Orderly q) (start cfg) w := by
  refine run_invariant (I := Reaches net.step (Orderly q) (start cfg)) ?_ .start has hrun
  rintro w ⟨r, a⟩ w' h hticks hstep
  obtain ⟨hok, hnext⟩ := checkedStep_eq_some.mp hstep
  exact .tail h ⟨hok, roomyAt_of_ticks hticks⟩ hnext

/-- A full mesh with a process that can serve everyone. -/
structure Provided [Fintype Peer] (net : Net Peer) (cfg : Peer → Config) (q : Peer)
    (w : Swarm Peer) : Prop where
  orderly : Reaches net.step (Orderly q) (start cfg) w
  expects : net.ExpectsMates cfg w
  running : Running w
  mesh : net.FullMesh cfg w
  file : (cfg q).hasFile = true
  room : Fintype.card Peer ≤ (cfg q).numPn + 1

section Provided

variable [Fintype Peer]

theorem Provided.healthy (h : net.Provided cfg q w) : net.Healthy cfg w where
  reaches := h.orderly.mono fun _ _ => And.left
  expects := h.expects
  running := h.running

theorem Provided.step (h : net.Provided cfg q w) (hcreate : a.creates = false)
    (hok : Orderly q w (r, a)) (hstep : net.step w (r, a) = some w')
    (hrun : Running w') : net.Provided cfg q w' where
  orderly := .tail h.orderly hok hstep
  expects := h.expects.step hcreate hstep
  running := hrun
  mesh := h.mesh.step (linked_reachable h.orderly.reachable) hcreate hstep
  file := h.file
  room := h.room

theorem Provided.run {ok : Swarm Peer → Peer × Act → Prop} [∀ w l, Decidable (ok w l)]
    {as : List (Peer × Act)} (h : net.Provided cfg q w)
    (hok : ∀ w l, ok w l → Orderly q w l) (has : ∀ l ∈ as, l.2.creates = false)
    (hrun : run (checkedStep net.step ok) w as = some w') (hup : Running w') :
    net.Provided cfg q w' := by
  have hkept : net.Provided cfg q w' ∨ ¬Running w' := by
    refine run_invariant (I := fun w => net.Provided cfg q w ∨ ¬Running w) ?_ (.inl h)
      has hrun
    rintro w ⟨r, a⟩ w' (h | hdown) hcreate hstep
    · obtain ⟨hmeets, hnext⟩ := checkedStep_eq_some.mp hstep
      by_cases hrun : Running w'
      · exact .inl (h.step hcreate (hok _ _ hmeets) hnext hrun)
      · exact .inr hrun
    · exact .inr (mt (checked_back w (r, a) w' hstep) hdown)
  exact hkept.resolve_right (not_not.mpr hup)

theorem Provided.few (h : net.Provided cfg q w) (r : Peer) :
    Proc.AtMost (Fintype.card Peer - 1) (w.proc r) := by
  have hlink := linked_reachable h.orderly.reachable
  obtain ⟨T, hT, -⟩ := Proc.created_sessions (hlink.procs r)
  exact ⟨T, fun t ht => (hT t).mpr ht, (h.mesh.card_sessions hlink hT).le⟩

theorem Provided.atMost (h : net.Provided cfg q w) :
    Proc.AtMost (cfg q).numPn (w.proc q) := by
  obtain ⟨T, hT, hcard⟩ := h.few q
  have := h.room
  exact ⟨T, hT, by omega⟩

/-- At rest, such a mesh has nothing left to do. -/
theorem Provided.complete (h : net.Provided cfg q w) (hrest : net.Resting w)
    (r : Peer) : OwnsAll w r := by
  by_cases hr : r = q
  · subst hr
    exact ownsAll_full (linked_reachable h.orderly.reachable) h.file
  · obtain ⟨s, rfl, hpc, hs⟩ := h.mesh.all r q (Ne.symm hr)
    exact hrest.served (h.orderly.mono fun _ _ => And.right) h.running h.file h.atMost
      hs hpc (h.mesh.met s hpc)

/-- Where its threads cannot go on, every process has the file, and none of its
sessions is unfinished. -/
theorem Provided.finished (hc : Common F size cfg) (h : net.Provided cfg q w)
    (hend : ∀ l, l.2.works = true → checkedStep net.step (Orderly q) w l = none)
    (r : Peer) :
    OwnsAll w r ∧ (w.proc r).sh.repo.file = F ∧
      (w.proc r).sh.sc.nUnfinishedSession = 0 := by
  have hr := h.orderly.reachable
  have hrest : net.Resting w := by
    refine resting_of_checked (linked_reachable hr) h.running fun l hworks => ?_
    rw [Option.eq_none_iff_forall_ne_some]
    intro w' hstep
    obtain ⟨hok, hnext⟩ := checkedStep_eq_some.mp hstep
    have hgo : checkedStep net.step (Orderly q) w l = some w' := checkedStep_eq_some.mpr
      ⟨⟨hok, roomyAt_of_ticks (ticks_of_works hworks)⟩, hnext⟩
    rw [hend l hworks] at hgo
    cases hgo
  have hall := h.complete hrest
  exact ⟨hall r, file_of_ownsAll hc hr (hall r),
    h.mesh.none_unfinished (linked_reachable hr) h.running hrest hall r⟩

section Counted

variable {kMemLimit : Nat} {x x' : Swarm Peer × (Peer → Int)}
  {l : (Peer × Act) × List CacheEntry} {ls : List ((Peer × Act) × List CacheEntry)}

theorem Provided.ample (h : net.Provided cfg q w)
    (hfit : (Fintype.card Peer - 1) * F.length ≤ kMemLimit) : Ample kMemLimit F w :=
  fun r => ⟨_, h.few r, hfit⟩

theorem Provided.budget (h : net.Provided cfg q w) :
    ∃ n c, ∀ as w', (∀ l ∈ as, l.2.creates = false) →
      Foundation.run (checkedStep net.step (Orderly q)) w as = some w' →
      (as.countP fun l => l.2.works) ≤ n + c * as.countP fun l => l.2.ticks := by
  obtain ⟨n, k, hk, hranked⟩ := works_checked net (Orderly q) w cfg
  refine ⟨w.load k, 12 * (n + 1), fun as w' hnew hrun => ?_⟩
  have hpays := hranked.run_pays ⟨h.orderly.reachable, hk⟩ hnew hrun
  rw [sum_works, sum_tickCost] at hpays
  omega

/-- What a run with counted caches is for the swarm, when everybody runs at its
end. -/
theorem Provided.counted_run {ok : Swarm Peer → Peer × Act → Prop}
    [∀ w l, Decidable (ok w l)] (h : net.Provided cfg q x.1) (hblind : Blind ok)
    (hok : ∀ w l, ok w l → Orderly q w l) (hcreate : ∀ l ∈ ls, l.1.2.creates = false)
    (hrun : Foundation.run (net.countedStep kMemLimit ok) x ls = some x')
    (hup : Running x'.1) :
    net.Provided cfg q x'.1 ∧
      ∃ as, as.map (fun l => l.2.kind) = ls.map (fun l => l.1.2.kind) ∧
        (∀ l ∈ as, l.2.creates = false) ∧
        Foundation.run (checkedStep net.step ok) x.1 as = some x'.1 := by
  obtain ⟨-, as, hkinds, hbase⟩ := run_of_counted hblind hrun hup
  have hnew : ∀ l ∈ as, l.2.kind.creates = false :=
    forall_of_map_eq (P := fun k => k.creates = false) hkinds hcreate
  exact ⟨h.run hok hnew hbase hup, as, hkinds, hnew, hbase⟩

/--
A full mesh of honest processes, one of which started with the file and has a
preferred slot for each of the others, finishes the download.  In every run that
creates no session and leaves everybody running there is a bound on the steps of
the threads, up to a constant for each tick of a timer; no such step stops a
process, if every cache has room for the file once for each peer; and whenever the
threads cannot go on, every process has the file and no session is unfinished.
-/
theorem download_completes (hc : Common F size cfg)
    (hx : net.CountedReachable kMemLimit cfg x) (h : net.Provided cfg q x.1) :
    ∃ n c, ∀ ls x', (∀ l ∈ ls, l.1.2.creates = false) →
      Foundation.run (net.countedStep kMemLimit (Orderly q)) x ls = some x' →
      Running x'.1 →
      (ls.countP fun l => l.1.2.works) ≤ n + c * (ls.countP fun l => l.1.2.ticks) ∧
      ((Fintype.card Peer - 1) * F.length ≤ kMemLimit → ∀ l y, l.1.2.works = true →
        net.countedStep kMemLimit (Orderly q) x' l = some y → Running y.1) ∧
      ((∃ l, l.1.2.works = true ∧ net.countedStep kMemLimit (Orderly q) x' l ≠ none) ∨
        ∀ r, OwnsAll x'.1 r ∧ (x'.1.proc r).sh.repo.file = F ∧
          (x'.1.proc r).sh.sc.nUnfinishedSession = 0) := by
  obtain ⟨n, c, hbudget⟩ := h.budget
  refine ⟨n, c, fun ls x' hcreate hrun hup => ?_⟩
  obtain ⟨h', as, hkinds, hnew, hbase⟩ := h.counted_run blind_orderly (fun _ _ => id) hcreate
    hrun hup
  refine ⟨?_, fun hfit l y hworks hstep => ?_,
    ((meter_lawful blind_orderly).goes_or_stuck fun l => l.2.works = true).imp_right
      (h'.finished hc)⟩
  · have hworks := countP_of_map_eq hkinds ActKind.works
    have hticks := countP_of_map_eq hkinds ActKind.ticks
    have hle := hbudget as x'.1 hnew hbase
    exact hworks ▸ hticks ▸ hle
  · exact (h'.healthy.counted_step hc (fun _ _ => And.left) (ample_supplies hc)
      ⟨hx.run hrun, h'.ample hfit⟩ hworks hstep).running

end Counted

end Provided

end Net

theorem seed_serves_finished :
    (pairNet.sess finished 1).pc ≠ .absent ∧
      Net.OwnsAll finished true ∧ (finished.proc true).sh.repo.file = [7] := by
  have horderly : Reaches pairNet.step (Net.Orderly false) (Net.start pairMesh)
      finished := Net.orderly_of_run finished_run (by decide)
  have hfew : Proc.AtMost (pairMesh false).numPn (finished.proc false) := by
    obtain ⟨T, hT, -⟩ := Proc.created_sessions
      ((Net.linked_reachable finished_reaches.reachable).procs false)
    refine ⟨T, fun t ht => (hT t).mpr ht, ?_⟩
    rw [finished_meshed.card_sessions
      (Net.linked_reachable finished_reaches.reachable) hT]
    decide
  have hends : ∀ s ∈ [0, 1], (pairNet.sess finished s).pc ≠ .absent := by decide +kernel
  have howner : pairNet.owner 1 = true := rfl
  have hserved := Net.seed_serves (s := 1) (q := false) pairMesh_common
    (horderly.mono fun _ _ => And.right) finished_running finished_rests rfl hfew rfl
    (hends 1 (by decide)) (hends 0 (by decide))
  rw [howner] at hserved
  exact ⟨hends 1 (by decide), hserved⟩

theorem begun_provided : pairNet.Provided pairMesh false begun where
  orderly := Net.orderly_of_run begun_run (by decide)
  expects := begun_healthy.expects
  running := begun_healthy.running
  mesh := pair_meshed (fun _ hs => (Net.absent_outside begun_run (by decide) hs).1)
    (by decide)
  file := rfl
  room := by decide

theorem download_completes_begun :
    (begun.proc true).sh.own.sv = [.requested] ∧
      ∃ n c, ∀ ls x', (∀ l ∈ ls, l.1.2.creates = false) →
        run (pairNet.countedStep pieceCacheSize (Net.Orderly false))
          (begun, fun _ => 0) ls = some x' → Net.Running x'.1 →
        (ls.countP fun l => l.1.2.works) ≤ n + c * (ls.countP fun l => l.1.2.ticks) ∧
        ((Fintype.card Bool - 1) * [(7 : UInt8)].length ≤ pieceCacheSize →
          ∀ l y, l.1.2.works = true →
          pairNet.countedStep pieceCacheSize (Net.Orderly false) x' l = some y →
            Net.Running y.1) ∧
        ((∃ l, l.1.2.works = true ∧
            pairNet.countedStep pieceCacheSize (Net.Orderly false) x' l ≠ none) ∨
          ∀ r, Net.OwnsAll x'.1 r ∧ (x'.1.proc r).sh.repo.file = [7] ∧
            (x'.1.proc r).sh.sc.nUnfinishedSession = 0) :=
  ⟨by decide, Net.download_completes pairMesh_common begun_counted begun_provided⟩

end CntPeer
