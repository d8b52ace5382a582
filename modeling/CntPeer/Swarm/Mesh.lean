import Mathlib.Data.Fintype.Prod
import CntPeer.Swarm.Apart

/-!
# From the start to the end

Where every pair of processes has a connection, the sessions can be created one
after the other; and then the download finishes.
-/

namespace CntPeer

open CntPeer.Foundation

namespace Proc

variable {p : Proc} {s : Sid} {expected : Sid → Int} {done : List Sid}

/-- The process has created sessions of the list, with the peers they expect, and
done nothing else.  A session is its own address. -/
structure Opened (expected : Sid → Int) (p : Proc) (done : List Sid) : Prop where
  running : p.sh.halt = none
  free : p.sh.sc.m = none
  stored : ∀ e ∈ p.sh.sc.ss, e.addr = e.s ∧ e.s ∈ done
  created : ∀ s, (p.sess s).pc ≠ .absent → s ∈ done
  expects : ∀ s, (p.sess s).expectedPeerId =
    if (p.sess s).pc = .absent then epidNoPreference else expected s

theorem opened_init (cfg : Config) : Opened expected (init cfg) [] where
  running := rfl
  free := rfl
  stored _ he := by cases he
  created _ hpc := absurd rfl hpc
  expects _ := rfl

theorem Opened.cons (h : Opened expected p done) (s : Sid) :
    Opened expected p (s :: done) where
  running := h.running
  free := h.free
  stored e he := (h.stored e he).imp_right (List.mem_cons_of_mem s)
  created t ht := List.mem_cons_of_mem s (h.created t ht)
  expects := h.expects

theorem Opened.create (h : Opened expected p done) (hs : s ∉ done) :
    ∃ p', p.step (.session s (.create s (expected s))) = some p' ∧
      Opened expected p' (s :: done) ∧ (p'.sess s).pc ≠ .absent := by
  have hpc : (p.sess s).pc = .absent := by_contra fun hpc => hs (h.created s hpc)
  have hfresh : ∀ e ∈ p.sh.sc.ss, e.addr ≠ s := by
    rintro e he rfl
    obtain ⟨haddr, hmem⟩ := h.stored e he
    exact hs (haddr ▸ hmem)
  have hen : p.enabled (.session s (.create s (expected s))) = true := by
    simpa [enabled, sessionEnabled, h.running, h.free, hpc] using hfresh
  refine ⟨_, step_eq_some.mpr ⟨hen, rfl⟩, ?_, ?_⟩
  · have hold := h.cons s
    refine ⟨hold.running, hold.free, fun e he => ?_, fun t ht => ?_, fun t => ?_⟩
    · rcases List.mem_append.mp he with he | he
      · exact hold.stored e he
      · cases List.mem_singleton.mp he
        exact ⟨rfl, List.mem_cons_self⟩
    · by_cases hts : t = s
      · subst hts
        exact List.mem_cons_self
      · rw [next, commit_of_ne hts] at ht
        exact hold.created t ht
    · by_cases hts : t = s
      · subst hts
        rw [next, commit_self]
        rfl
      · rw [next, commit_of_ne hts]
        exact hold.expects t
  · rw [next, commit_self]
    exact fun habs => by cases habs

end Proc

namespace Net

variable {Peer : Type*} {net : Net Peer} {w w' : Swarm Peer} {q r : Peer}
  {s : Sid} {cfg : Peer → Config} {F : List UInt8} {size : Nat}
  {expected : Sid → Int} {a : Act}

/-- A connection for each pair of processes, by its end at the first of them. -/
structure Mesh (net : Net Peer) where
  line : Peer → Peer → Sid
  owner_line : ∀ q r, r ≠ q → net.owner (line q r) = q
  mate_line : ∀ q r, r ≠ q → net.mate (line q r) = line r q

theorem Mesh.owner_mate (mesh : net.Mesh) (h : r ≠ q) :
    net.owner (net.mate (mesh.line q r)) = r := by
  rw [mesh.mate_line q r h, mesh.owner_line r q h.symm]

/-- The sessions of the list have been created, and nothing else has happened. -/
structure Opened (net : Net Peer) (expected : Sid → Int) (w : Swarm Peer)
    (done : List Sid) : Prop where
  procs : ∀ q, Proc.Opened expected (w.proc q) done
  made : ∀ s ∈ done, (net.sess w s).pc ≠ .absent

def opens (net : Net Peer) (expected : Sid → Int) (s : Sid) : Peer × Act :=
  (net.owner s, .session s (.create s (expected s)))

def Creates (_ : Swarm Peer) (l : Peer × Act) : Prop := l.2.creates = true

theorem Creates.orderly {l : Peer × Act} (h : Creates w l) : Orderly q w l := by
  obtain ⟨r, a⟩ := l
  cases a with
  | session s b =>
      cases b with
      | create _ _ => exact ⟨trivial, fun _ => trivial⟩
      | _ => cases h
  | _ => cases h

/-- Each session that has been created expects its own peer. -/
def Expects (net : Net Peer) (expected : Sid → Int) (w : Swarm Peer) : Prop :=
  ∀ s, (net.sess w s).expectedPeerId =
    if (net.sess w s).pc = .absent then epidNoPreference else expected s

theorem Expects.mates (h : net.Expects expected w)
    (hmates : ∀ s, expected s = epidNoPreference ∨
      expected s = (cfg (net.owner (net.mate s))).selfPeerId) :
    net.ExpectsMates cfg w := by
  intro s
  rw [h s]
  split
  · exact .inl rfl
  · exact hmates s

variable [DecidableEq Peer]

theorem Expects.step (h : net.Expects expected w) (hlink : Linked net cfg w)
    (hcreate : a.creates = false) (hstep : net.step w (q, a) = some w') :
    net.Expects expected w' := by
  intro s
  by_cases hs : net.owner s = q
  · subst hs
    have habs := Proc.absent_step (t := s) (Proc.lifecycle_reachable (hlink.procs _))
      hcreate (proc_self hstep)
    rw [sess, Proc.expectedPeerId_step hcreate (proc_self hstep) s, if_congr habs rfl rfl]
    exact h s
  · rw [sess_of_ne hstep hs]
    exact h s

theorem Expects.run {as : List (Peer × Act)} (h : net.Expects expected w)
    (hr : net.Reachable cfg w) (has : ∀ l ∈ as, l.2.creates = false)
    (hrun : run net.step w as = some w') : net.Expects expected w' := by
  have hkept : net.Reachable cfg w' ∧ net.Expects expected w' := by
    refine run_invariant (I := fun w => net.Reachable cfg w ∧ net.Expects expected w)
      ?_ ⟨hr, h⟩ has hrun
    rintro w ⟨r, a⟩ w' ⟨hr, h⟩ hcreate hstep
    exact ⟨.tail hr trivial hstep, h.step (linked_reachable hr) hcreate hstep⟩
  exact hkept.2

theorem Opened.step {done : List Sid} (h : net.Opened expected w done) (hs : s ∉ done) :
    ∃ w', net.step w (net.opens expected s) = some w' ∧
      net.Opened expected w' (s :: done) := by
  obtain ⟨p, hstep, hopen, hmade⟩ := (h.procs (net.owner s)).create hs
  have hadm : net.admits w (net.owner s) (.session s (.create s (expected s))) = true := by
    simp [admits, SessionAct.input, SessionAct.reliable]
  have hnext := step_eq_some.mpr ⟨hadm, p, hstep, rfl⟩
  refine ⟨_, hnext, ⟨fun q => ?_, fun t ht => ?_⟩⟩
  · by_cases hq : q = net.owner s
    · subst hq
      simpa using hopen
    · rw [proc_of_ne hnext hq]
      exact (h.procs q).cons s
  · rcases List.mem_cons.mp ht with rfl | ht
    · simpa [sess] using hmade
    · by_cases hq : net.owner t = net.owner s
      · have hold := h.made t ht
        rw [sess, hq] at hold ⊢
        exact Proc.created_step (proc_self hnext) hold
      · rw [sess, proc_of_ne hnext hq]
        exact h.made t ht

theorem Opened.all {l done : List Sid} (h : net.Opened expected w done)
    (hr : Reaches net.step Creates (start cfg) w) (hl : l.Nodup)
    (hnew : ∀ s ∈ l, s ∉ done) :
    ∃ w', Reaches net.step Creates (start cfg) w' ∧
      net.Opened expected w' (l.reverse ++ done) := by
  induction l generalizing w done with
  | nil => exact ⟨w, hr, h⟩
  | cons s l ih =>
      obtain ⟨hs, hl⟩ := List.nodup_cons.mp hl
      obtain ⟨w₁, hstep, hopen⟩ := h.step (hnew s List.mem_cons_self)
      rw [List.reverse_cons, List.append_assoc, List.singleton_append]
      refine ih hopen (.tail (a := net.opens expected s) hr rfl hstep) hl fun t ht hmem => ?_
      rcases List.mem_cons.mp hmem with rfl | hmem
      · exact hs ht
      · exact hnew t (List.mem_cons_of_mem s ht) hmem

theorem exact_of_creates {kMemLimit : Nat} (hc : Common F size cfg)
    (hfit : min size F.length ≤ kMemLimit) (h : Reaches net.step Creates (start cfg) w) :
    Exact (w, fun _ => 0) := by
  refine h.invariant (I := fun w => Exact (w, fun _ => 0)) exact_start ?_
  rintro w ⟨r, a⟩ w' hr hx hcreates hstep
  have hfree : (cacheMeter Peer kMemLimit).Free w (r, a) :=
    free_of_insertion (Proc.insertion_of_creates hcreates)
  obtain ⟨order, hask⟩ := hfree
  refine hx.served hc hfit hr.reachable (hask _) ?_ hstep
  cases a with
  | session s b =>
      cases b with
      | create _ _ => trivial
      | _ => cases hcreates
  | _ => cases hcreates

/-! ### A mesh -/

section Mesh

variable [Fintype Peer]

def Mesh.ends (mesh : net.Mesh) : Finset Sid :=
  (Finset.univ.filter fun e : Peer × Peer => e.2 ≠ e.1).image fun e =>
    mesh.line e.1 e.2

theorem Mesh.mem_ends {mesh : net.Mesh} :
    s ∈ mesh.ends ↔ ∃ q r, r ≠ q ∧ mesh.line q r = s := by
  simp [ends]

theorem Mesh.full (mesh : net.Mesh)
    (hcount : ∀ q, (cfg q).totalPeerCount = Fintype.card Peer)
    (hends : ∀ s, (net.sess w s).pc ≠ .absent ↔ s ∈ mesh.ends) :
    net.FullMesh cfg w := by
  refine ⟨⟨hcount, fun s hs => ?_, fun s t hs ht howner hmate => ?_⟩, fun s hs => ?_,
    fun q r hr => ?_⟩
  · obtain ⟨q, r, hr, rfl⟩ := mem_ends.mp ((hends s).mp hs)
    rwa [mesh.owner_mate hr, mesh.owner_line q r hr]
  · obtain ⟨q, r, hr, rfl⟩ := mem_ends.mp ((hends s).mp hs)
    obtain ⟨q', r', hr', rfl⟩ := mem_ends.mp ((hends t).mp ht)
    rw [mesh.owner_line q r hr, mesh.owner_line q' r' hr'] at howner
    rw [mesh.owner_mate hr, mesh.owner_mate hr'] at hmate
    rw [howner, hmate]
  · obtain ⟨q, r, hr, rfl⟩ := mem_ends.mp ((hends s).mp hs)
    rw [mesh.mate_line q r hr, hends]
    exact mem_ends.mpr ⟨r, q, hr.symm, rfl⟩
  · exact ⟨mesh.line q r, mesh.owner_line q r hr,
      (hends _).mpr (mem_ends.mpr ⟨q, r, hr, rfl⟩), mesh.owner_mate hr⟩

/-- The mesh can be set up, whatever the processes are. -/
theorem Mesh.provided (mesh : net.Mesh)
    (hcount : ∀ q, (cfg q).totalPeerCount = Fintype.card Peer)
    (hmates : ∀ s, expected s = epidNoPreference ∨
      expected s = (cfg (net.owner (net.mate s))).selfPeerId)
    (hfile : (cfg q).hasFile = true) (hroom : Fintype.card Peer ≤ (cfg q).numPn + 1) :
    ∃ w, Reaches net.step Creates (start cfg) w ∧ net.Provided cfg q w ∧
      net.Expects expected w := by
  have hstart : net.Opened expected (start cfg) [] :=
    ⟨fun q => Proc.opened_init (cfg q), nofun⟩
  obtain ⟨w, hr, hopen⟩ := hstart.all (l := mesh.ends.toList) .start
    mesh.ends.nodup_toList fun _ _ => List.not_mem_nil
  have hexpects : net.Expects expected w := fun s => (hopen.procs _).expects s
  have hends : ∀ s, (net.sess w s).pc ≠ .absent ↔ s ∈ mesh.ends := by
    intro s
    have hmem : s ∈ mesh.ends.toList.reverse ++ [] ↔ s ∈ mesh.ends := by simp
    rw [← hmem]
    exact ⟨(hopen.procs _).created s, hopen.made s⟩
  exact ⟨w, hr, ⟨hr.mono fun _ _ => Creates.orderly, hexpects.mates hmates,
    fun r => (hopen.procs r).running, mesh.full hcount hends, hfile, hroom⟩, hexpects⟩

/-- Once it is set up, its threads take it to where they cannot go on. -/
theorem Mesh.rests {kMemLimit : Nat} (hc : Common F size cfg) (mesh : net.Mesh)
    (hcount : ∀ q, (cfg q).totalPeerCount = Fintype.card Peer)
    (hmates : ∀ s, expected s = epidNoPreference ∨
      expected s = (cfg (net.owner (net.mate s))).selfPeerId)
    (hfile : (cfg q).hasFile = true) (hroom : Fintype.card Peer ≤ (cfg q).numPn + 1)
    (hfit : min size F.length ≤ kMemLimit) :
    ∃ x, Foundation.Reachable (net.countedStep kMemLimit (Orderly q))
        (start cfg, fun _ => 0) x ∧
      net.Provided cfg q x.1 ∧ net.Expects expected x.1 ∧
      ∀ l, l.2.works = true → checkedStep net.step (Orderly q) x.1 l = none := by
  obtain ⟨w₀, hcreated, h₀, hexpects⟩ := mesh.provided hcount hmates hfile hroom
  have hreach : Foundation.Reachable (net.countedStep kMemLimit (Orderly q))
      (start cfg, fun _ => 0) (w₀, fun _ => 0) := by
    refine Meter.reachable_free _ ((hcreated.checked fun _ _ => Creates.orderly).mono ?_)
    exact fun w l hl => free_of_insertion (Proc.insertion_of_creates hl)
  obtain ⟨ls, x, hworks, hrun, hhealthy, hend⟩ :=
    h₀.healthy.counted_rests hc blind_careful (fun _ _ hok => hok.1.1)
      (exact_supplies hc hfit) (x := (w₀, fun _ => 0)) (exact_of_creates hc hfit hcreated)
  obtain ⟨h, as, -, hnew, hbase⟩ := h₀.counted_run blind_careful (fun _ _ => And.left)
    (fun l hl => (works_free (n := 0) (hworks l hl)).1) hrun hhealthy.running
  have horderly : Foundation.Reachable (net.countedStep kMemLimit (Orderly q))
      (w₀, fun _ => 0) x := by
    refine Meter.reachable_mono (fun w l w' hstep => ?_) (reachable_of_run hrun)
    obtain ⟨hok, hnext⟩ := checkedStep_eq_some.mp hstep
    exact checkedStep_eq_some.mpr ⟨hok.1, hnext⟩
  refine ⟨x, hreach.trans horderly, h,
    hexpects.run h₀.orderly.reachable hnew (run_of_checkedRun hbase), ?_⟩
  refine stuck_of_careful (linked_reachable h.orderly.reachable) h.running fun l hl => ?_
  exact stuck_of_counted blind_careful fun order => hend (l, order) hl

/--
However many processes there are: if one started with the file and has a
preferred slot for each of the others, every pair has a connection, and a piece is
not larger than a cache may be, then there is a run from the start to a state
where everybody runs, every process has the file and no session is unfinished;
each session expects its peer, or nobody, as it was created to.
-/
theorem mesh_finishes {kMemLimit : Nat} (hc : Common F size cfg) (mesh : net.Mesh)
    (hcount : ∀ q, (cfg q).totalPeerCount = Fintype.card Peer)
    (hmates : ∀ s, expected s = epidNoPreference ∨
      expected s = (cfg (net.owner (net.mate s))).selfPeerId)
    (hfile : (cfg q).hasFile = true) (hroom : Fintype.card Peer ≤ (cfg q).numPn + 1)
    (hfit : min size F.length ≤ kMemLimit) :
    ∃ x, Foundation.Reachable (net.countedStep kMemLimit (Orderly q))
        (start cfg, fun _ => 0) x ∧
      Running x.1 ∧ net.Expects expected x.1 ∧
      ∀ r, OwnsAll x.1 r ∧ (x.1.proc r).sh.repo.file = F ∧
        (x.1.proc r).sh.sc.nUnfinishedSession = 0 := by
  obtain ⟨x, hreach, h, hexpects, hend⟩ := mesh.rests hc hcount hmates hfile hroom hfit
  exact ⟨x, hreach, h.running, hexpects, h.finished hc hend⟩

end Mesh

end Net

def pairMeshLines : pairNet.Mesh where
  line q _ := if q then 1 else 0
  owner_line := by decide
  mate_line := by decide

theorem mesh_finishes_pair :
    ∃ x, Reachable (pairNet.countedStep pieceCacheSize (Net.Orderly false))
        (Net.start pairMesh, fun _ => 0) x ∧
      Net.Running x.1 ∧ pairNet.Expects (fun _ => epidNoPreference) x.1 ∧
      ∀ r, Net.OwnsAll x.1 r ∧ (x.1.proc r).sh.repo.file = [7] ∧
        (x.1.proc r).sh.sc.nUnfinishedSession = 0 :=
  Net.mesh_finishes pairMesh_common pairMeshLines (by decide) (fun _ => .inl rfl) rfl
    (by decide) (by decide)

end CntPeer
