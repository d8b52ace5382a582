import CntPeer.Main.Connect
import CntPeer.Main.Usable

/-!
# Full mesh

All peers read the same `PeerInfo.cfg`, each with its own id, and connect to the
peers listed before them.  Over any failures that stop, each pair of peers ends
up with one session.
-/

namespace CntPeer.Main

open CntPeer.Foundation

def PeerRecord.info (r : PeerRecord) : PeerInfo := ⟨r.peerId, r.port, r.fqdn⟩

def ids (records : List PeerRecord) : List Int := records.map PeerRecord.peerId

theorem takeWhile_append_of_mem {α : Type} {p : α → Bool} {l l' : List α} {a : α}
    (ha : a ∈ l) (hp : ¬ p a) : (l ++ l').takeWhile p = l.takeWhile p := by
  rw [List.takeWhile_append, if_neg]
  intro hlen
  have hall := List.takeWhile_eq_self_iff.mp
    ((List.takeWhile_prefix p).eq_of_length hlen)
  exact hp (hall a ha)

namespace PeerTable

variable {selfPeerId : Int} {records : List PeerRecord} {table : PeerTable}

/-- What the constructor has read from the records `before`. -/
structure Loading.Spec (selfPeerId : Int) (before : List PeerRecord) (x : Loading) :
    Prop where
  nodup : (ids before).Nodup
  idset : x.idset = (ids before).reverse
  self : x.self = (before.find? fun r => r.peerId = selfPeerId).map
    fun r => (decide (r.hasFile ≠ 0), r.port)
  prior : x.priorPeers =
    (before.takeWhile fun r => r.peerId ≠ selfPeerId).map PeerRecord.info

theorem Loading.Spec.add {before : List PeerRecord} {x x' : Loading} {r : PeerRecord}
    (h : Spec selfPeerId before x) (hadd : Loading.add selfPeerId x r = .ok x') :
    Spec selfPeerId (before ++ [r]) x' := by
  unfold Loading.add at hadd
  split at hadd
  · contradiction
  · rename_i hnew
    rw [h.idset, List.mem_reverse] at hnew
    cases hadd
    refine ⟨?_, ?_, ?_, ?_⟩
    · rw [ids, List.map_append]
      exact List.nodup_append.mpr ⟨h.nodup, List.nodup_singleton _, by
        rintro a ha b hb rfl
        exact hnew (List.mem_singleton.mp hb ▸ ha)⟩
    · simp [ids, h.idset]
    · have hself := h.self
      cases hfind : before.find? fun r => r.peerId = selfPeerId with
      | none =>
          rw [hfind] at hself
          by_cases hr : r.peerId = selfPeerId <;> simp [hself, hfind, hr]
      | some own =>
          rw [hfind] at hself
          simp [hself, hfind]
    · have hself := h.self
      cases hfind : before.find? fun r => r.peerId = selfPeerId with
      | none =>
          rw [hfind] at hself
          have hother : ∀ r ∈ before, decide (r.peerId ≠ selfPeerId) := by
            simpa using hfind
          have hprior : x.priorPeers = before.map PeerRecord.info :=
            h.prior.trans (congrArg _ (List.takeWhile_eq_self_iff.mpr hother))
          rw [List.takeWhile_append_of_pos hother, List.map_append, ← hprior]
          by_cases hr : r.peerId = selfPeerId <;>
            simp [hself, hr, PeerRecord.info]
      | some own =>
          rw [hfind] at hself
          have hown : own.peerId = selfPeerId := by simpa using List.find?_some hfind
          rw [takeWhile_append_of_mem (List.mem_of_find?_eq_some hfind) (by simp [hown]),
            ← h.prior]
          simp [hself]

theorem Loading.exists_ok (x : Loading) (hnodup : (ids records).Nodup)
    (hnew : ∀ i ∈ ids records, i ∉ x.idset) :
    ∃ x', records.foldlM (Loading.add selfPeerId) x = .ok x' := by
  induction records generalizing x with
  | nil => exact ⟨x, rfl⟩
  | cons r records ih =>
      obtain ⟨hr, hnodup⟩ := List.nodup_cons.mp hnodup
      rw [List.foldlM_cons, Loading.add, if_neg (hnew _ (List.mem_cons_self ..))]
      refine ih _ hnodup fun i hi hmem => ?_
      rcases List.mem_cons.mp hmem with rfl | hmem
      · exact hr hi
      · exact hnew i (List.mem_cons_of_mem _ hi) hmem

theorem Loading.spec_of_read {x : Loading}
    (h : records.foldlM (Loading.add selfPeerId) {} = .ok x) :
    Loading.Spec selfPeerId records x :=
  loop_invariant (P := Loading.Spec selfPeerId) Loading.Spec.add
    ⟨.nil, rfl, rfl, rfl⟩ h

theorem read_spec (h : read selfPeerId records = .ok table) :
    ∃ x, Loading.Spec selfPeerId records x ∧ x.self = some (table.hasFile, table.selfPort) ∧
      table.priorPeers = x.priorPeers ∧ table.nTotalPeer = x.idset.length := by
  obtain ⟨x, hfold, hself⟩ := bind_eq_ok.mp h
  have hspec := Loading.spec_of_read hfold
  split at hself
  · contradiction
  · rename_i hfound
    cases hself
    exact ⟨x, hspec, hfound, rfl, rfl⟩

theorem read_eq_ok (h : read selfPeerId records = .ok table) :
    (ids records).Nodup ∧ selfPeerId ∈ ids records ∧
      table.priorPeers =
        (records.takeWhile fun r => r.peerId ≠ selfPeerId).map PeerRecord.info ∧
      table.nTotalPeer = records.length := by
  obtain ⟨x, hspec, hself, hprior, htotal⟩ := read_spec h
  refine ⟨hspec.nodup, ?_, hprior.trans hspec.prior, ?_⟩
  · rw [hspec.self] at hself
    obtain ⟨own, hown, -⟩ := Option.map_eq_some_iff.mp hself
    have hid : own.peerId = selfPeerId := by simpa using List.find?_some hown
    exact List.mem_map.mpr ⟨own, List.mem_of_find?_eq_some hown, hid⟩
  · rw [htotal, hspec.idset, List.length_reverse, ids, List.length_map]

theorem exists_read (hnodup : (ids records).Nodup) (hself : selfPeerId ∈ ids records) :
    ∃ table, read selfPeerId records = .ok table := by
  obtain ⟨x, hfold⟩ : ∃ x, records.foldlM (Loading.add selfPeerId) {} = .ok x :=
    Loading.exists_ok {} hnodup fun _ _ hmem => nomatch hmem
  have hspec := Loading.spec_of_read hfold
  obtain ⟨own, hown, hid⟩ := List.mem_map.mp hself
  cases hfind : records.find? fun r => r.peerId = selfPeerId with
  | none => simpa [hid] using List.find?_eq_none.mp hfind own hown
  | some r =>
      have hfound := hspec.self
      rw [hfind, Option.map_some] at hfound
      exact ⟨⟨decide (r.hasFile ≠ 0), r.port, x.priorPeers, x.idset.length⟩,
        bind_eq_ok.mpr ⟨x, hfold, by rw [hfound]⟩⟩

def priorIds (table : PeerTable) : List Int := table.priorPeers.map PeerInfo.peerId

theorem priorIds_eq (h : read selfPeerId records = .ok table) :
    table.priorIds = (ids records).takeWhile fun i => i ≠ selfPeerId := by
  rw [priorIds, (read_eq_ok h).2.2.1, List.map_map, ids, List.takeWhile_map]
  rfl

theorem mem_takeWhile_ne {l : List Int} {i self : Int} (hself : self ∈ l) :
    (i ∈ l.takeWhile fun i => i ≠ self) ↔ l.idxOf i < l.idxOf self := by
  induction l with
  | nil => cases hself
  | cons first l ih =>
      by_cases hfirst : first = self
      · subst hfirst
        simp
      · have hself' := List.mem_of_ne_of_mem (Ne.symm hfirst) hself
        rw [List.takeWhile_cons_of_pos (by simpa using hfirst),
          List.idxOf_cons_ne _ hfirst, List.mem_cons, ih hself']
        by_cases hi : i = first
        · subst hi
          simp
        · rw [List.idxOf_cons_ne _ (Ne.symm hi)]
          simp [hi]

theorem mem_priorIds (h : read selfPeerId records = .ok table) {i : Int} :
    i ∈ table.priorIds ↔ (ids records).idxOf i < (ids records).idxOf selfPeerId := by
  rw [priorIds_eq h, mem_takeWhile_ne (read_eq_ok h).2.1]

theorem mem_ids_of_mem_priorIds (h : read selfPeerId records = .ok table) {i : Int}
    (hi : i ∈ table.priorIds) : i ∈ ids records := by
  rw [priorIds_eq h] at hi
  exact (List.takeWhile_prefix _).subset hi

theorem priorIds_nodup (h : read selfPeerId records = .ok table) :
    table.priorIds.Nodup := by
  rw [priorIds_eq h]
  exact (List.takeWhile_prefix _).sublist.nodup (read_eq_ok h).1

end PeerTable

/-- Each listed peer runs with its own id and accepts at its own address. -/
def Runs (listener : Text → Int → Option Int) (records : List PeerRecord) : Prop :=
  ∀ r ∈ records, listener r.fqdn r.port = some r.peerId

/-- The connections of `p` that peer `q` has accepted; `startServer` creates a
session for each. -/
def acceptedFrom (listener : Text → Int → Option Int) (final : Int → Connecting)
    (q p : Int) : List Int :=
  ((final p).created.filter fun peer => listener peer.fqdn peer.port = some q).map
    fun _ => p

/-- The peers at the other end of the sessions of `q`. -/
def sessionsOf (listener : Text → Int → Option Int) (records : List PeerRecord)
    (final : Int → Connecting) (q : Int) : List Int :=
  (final q).created.map PeerInfo.peerId ++
    (ids records).flatMap (acceptedFrom listener final q)

/-- Every listed peer has read the list and has connected to its prior peers. -/
structure Connected (records : List PeerRecord) (table : Int → PeerTable)
    (final : Int → Connecting) : Prop where
  read : ∀ q ∈ ids records, PeerTable.read q records = .ok (table q)
  created : ∀ q ∈ ids records, (final q).created.Perm (table q).priorPeers

variable {listener : Text → Int → Option Int} {records : List PeerRecord}
  {table : Int → PeerTable} {final : Int → Connecting} {p q : Int}

theorem Connected.created_ids (h : Connected records table final)
    (hq : q ∈ ids records) :
    ((final q).created.map PeerInfo.peerId).Perm (table q).priorIds :=
  (h.created q hq).map _

theorem Connected.reaches_iff (h : Connected records table final)
    (hruns : Runs listener records) (hp : p ∈ ids records) {peer : PeerInfo}
    (hpeer : peer ∈ (final p).created) :
    listener peer.fqdn peer.port = some q ↔ peer.peerId = q := by
  have hprior := (h.created p hp).subset hpeer
  rw [(PeerTable.read_eq_ok (h.read p hp)).2.2.1] at hprior
  obtain ⟨r, hr, rfl⟩ := List.mem_map.mp hprior
  have hrecord := (List.takeWhile_prefix _).subset hr
  rw [PeerRecord.info, hruns r hrecord, Option.some_inj]

theorem Connected.acceptedFrom_eq (h : Connected records table final)
    (hruns : Runs listener records) (hp : p ∈ ids records) :
    acceptedFrom listener final q p =
      if (ids records).idxOf q < (ids records).idxOf p then [p] else [] := by
  have hcount : ((final p).created.filter
      fun peer => listener peer.fqdn peer.port = some q).length =
        (table p).priorIds.count q := by
    rw [← List.countP_eq_length_filter, ← (h.created_ids hp).count_eq, List.count,
      List.countP_map]
    refine List.countP_congr fun peer hpeer => ?_
    rw [decide_eq_true_iff, h.reaches_iff hruns hp hpeer]
    exact (beq_iff_eq).symm
  rw [acceptedFrom, List.map_const', hcount]
  split
  · rename_i hlt
    have hmem := (PeerTable.mem_priorIds (h.read p hp)).mpr hlt
    rw [List.count_eq_one_of_mem (PeerTable.priorIds_nodup (h.read p hp)) hmem]
    rfl
  · rename_i hnot
    have hmem := mt (PeerTable.mem_priorIds (h.read p hp)).mp hnot
    rw [List.count_eq_zero_of_not_mem hmem]
    rfl

theorem flatMap_ite {l : List Int} {c : Int → Prop} [DecidablePred c] :
    (l.flatMap fun p => if c p then [p] else []) = l.filter fun p => c p := by
  induction l with
  | nil => rfl
  | cons p l ih =>
      rw [List.flatMap_cons, ih]
      by_cases hp : c p <;> simp [hp]

theorem Connected.sessionsOf_perm (h : Connected records table final)
    (hruns : Runs listener records) (hq : q ∈ ids records) :
    (sessionsOf listener records final q).Perm ((ids records).erase q) := by
  have hread := h.read q hq
  have hnodup := (PeerTable.read_eq_ok hread).1
  have haccepted : (ids records).flatMap (acceptedFrom listener final q) =
      (ids records).filter
        fun p => (ids records).idxOf q < (ids records).idxOf p := by
    rw [← flatMap_ite]
    exact List.flatMap_congr fun p hp => h.acceptedFrom_eq hruns hp
  rw [sessionsOf, haccepted]
  refine ((h.created_ids hq).append_right _).trans ?_
  refine (List.perm_ext_iff_of_nodup ?_ (hnodup.erase q)).mpr fun i => ?_
  · refine List.nodup_append.mpr ⟨PeerTable.priorIds_nodup hread, hnodup.filter _, ?_⟩
    rintro i hi j hj rfl
    have hlt := (PeerTable.mem_priorIds hread).mp hi
    have hgt := of_decide_eq_true (List.mem_filter.mp hj).2
    omega
  · rw [List.mem_append, PeerTable.mem_priorIds hread, List.mem_filter,
      decide_eq_true_iff, hnodup.mem_erase_iff]
    constructor
    · rintro (hlt | ⟨hi, hgt⟩)
      · refine ⟨fun heq => ?_, PeerTable.mem_ids_of_mem_priorIds hread
          ((PeerTable.mem_priorIds hread).mpr hlt)⟩
        rw [heq] at hlt
        omega
      · refine ⟨fun heq => ?_, hi⟩
        rw [heq] at hgt
        omega
    · rintro ⟨hne, hi⟩
      rcases Nat.lt_trichotomy ((ids records).idxOf i) ((ids records).idxOf q)
        with hlt | heq | hgt
      · exact .inl hlt
      · exact (hne ((List.idxOf_inj hi).mp heq)).elim
      · exact .inr ⟨hi, hgt⟩

theorem exists_connected {fails : Int → Nat → Nat → Bool}
    (hnodup : (ids records).Nodup)
    (hstop : ∀ q ∈ ids records, ∃ R, ∀ r, R ≤ r → ∀ i, fails q r i = false) :
    ∃ table final, Connected records table final ∧
      ∀ q ∈ ids records, ∃ fuel,
        Connecting.connect (table q).priorPeers (fails q) fuel 0
          (.start (table q).priorPeers) = some (final q) := by
  have htable : ∀ q, ∃ t, q ∈ ids records → PeerTable.read q records = .ok t := by
    intro q
    by_cases hq : q ∈ ids records
    · obtain ⟨t, ht⟩ := PeerTable.exists_read hnodup hq
      exact ⟨t, fun _ => ht⟩
    · exact ⟨⟨false, 0, [], 0⟩, fun hq' => (hq hq').elim⟩
  choose table htable using htable
  have hfinal : ∀ q, ∃ x, q ∈ ids records →
      x.created.Perm (table q).priorPeers ∧ ∃ fuel,
        Connecting.connect (table q).priorPeers (fails q) fuel 0
          (.start (table q).priorPeers) = some x := by
    intro q
    by_cases hq : q ∈ ids records
    · obtain ⟨R, hR⟩ := hstop q hq
      obtain ⟨fuel, x, hx, hperm⟩ :=
        (Connecting.tracks_start (table q).priorPeers).terminates hR 0
      exact ⟨x, fun _ => ⟨hperm, fuel, hx⟩⟩
    · exact ⟨.start [], fun hq' => (hq hq').elim⟩
  choose final hfinal using hfinal
  exact ⟨table, final, ⟨htable, fun q hq => (hfinal q hq).1⟩,
    fun q hq => (hfinal q hq).2⟩

theorem Connected.prior_xor (h : Connected records table final) (hp : p ∈ ids records)
    (hq : q ∈ ids records) (hne : p ≠ q) :
    Xor (p ∈ (table q).priorIds) (q ∈ (table p).priorIds) := by
  rw [PeerTable.mem_priorIds (h.read q hq), PeerTable.mem_priorIds (h.read p hp)]
  have hidx := mt (List.idxOf_inj hp).mp hne
  rcases Nat.lt_or_gt_of_ne hidx with hlt | hgt
  · exact .inl ⟨hlt, by omega⟩
  · exact .inr ⟨hgt, by omega⟩

theorem Config.peers_of_read {commonCfg peerInfoCfg : Text} {config : Config}
    (h : Config.read q commonCfg peerInfoCfg = .ok config) :
    PeerTable.read q (extractAll PeerRecord.extract peerInfoCfg) = .ok config.peers := by
  obtain ⟨common, -, h⟩ := bind_eq_ok.mp h
  obtain ⟨peers, hpeers, h⟩ := bind_eq_ok.mp h
  cases h
  exact hpeers

theorem Config.read_rejects {commonCfg peerInfoCfg : Text}
    (h : ¬ ((ids (extractAll PeerRecord.extract peerInfoCfg)).Nodup ∧
      q ∈ ids (extractAll PeerRecord.extract peerInfoCfg))) :
    ∃ e, Config.read q commonCfg peerInfoCfg = .error e := by
  cases hread : Config.read q commonCfg peerInfoCfg with
  | error e => exact ⟨e, rfl⟩
  | ok config =>
      have hok := PeerTable.read_eq_ok (peers_of_read hread)
      exact (h ⟨hok.1, hok.2.1⟩).elim

theorem Connected.nUnfinishedSession (h : Connected records table final)
    (hruns : Runs listener records) (hq : q ∈ ids records) {config : Config}
    (hconfig : config.peers = table q) (file : List UInt8) :
    (Proc.init (config.view file)).sh.sc.nUnfinishedSession =
      (sessionsOf listener records final q).length := by
  have htotal := (PeerTable.read_eq_ok (h.read q hq)).2.2.2
  have hlength := (h.sessionsOf_perm hruns hq).length_eq
  have hids : (ids records).length = records.length := List.length_map _
  have hpos := List.length_pos_of_mem hq
  rw [List.length_erase_of_mem hq] at hlength
  change (config.peers.nTotalPeer : Int) - 1 = _
  rw [hconfig, htotal, hlength]
  omega

/--
A list that repeats an id, or lacks self, is rejected.  Peers that read the same
list and run with its ids end up with one session for each pair, whatever
failures there are before they stop.
-/
theorem full_mesh {peerInfoCfg : Text}
    (hrecords : extractAll PeerRecord.extract peerInfoCfg = records) :
    (∀ q commonCfg, ¬ ((ids records).Nodup ∧ q ∈ ids records) →
      ∃ e, Config.read q commonCfg peerInfoCfg = .error e) ∧
    ∀ (listener : Text → Int → Option Int) (fails : Int → Nat → Nat → Bool),
      Runs listener records →
      (∀ q ∈ ids records, ∃ R, ∀ r, R ≤ r → ∀ i, fails q r i = false) →
      (ids records).Nodup → ∃ table final, Connected records table final ∧
      (∀ p ∈ ids records, ∀ q ∈ ids records, p ≠ q →
        Xor (p ∈ (table q).priorIds) (q ∈ (table p).priorIds)) ∧
      ∀ q ∈ ids records,
        (∀ r k, ((Connecting.within (table q).priorPeers (fails q) r k).created.map
          PeerInfo.peerId).Nodup) ∧
        (∃ r, final q = Connecting.entering (table q).priorPeers (fails q) r) ∧
        (∃ fuel, Connecting.connect (table q).priorPeers (fails q) fuel 0
          (.start (table q).priorPeers) = some (final q)) ∧
        (sessionsOf listener records final q).Perm ((ids records).erase q) ∧
        ∀ commonCfg config file, Config.read q commonCfg peerInfoCfg = .ok config →
          (Proc.init (config.view file)).sh.sc.nUnfinishedSession =
            (sessionsOf listener records final q).length := by
  subst hrecords
  refine ⟨fun q commonCfg => Config.read_rejects,
    fun listener fails hruns hstop hnodup => ?_⟩
  obtain ⟨table, final, hconnected, hloop⟩ := exists_connected hnodup hstop
  refine ⟨table, final, hconnected, fun p hp q hq => hconnected.prior_xor hp hq,
    fun q hq => ⟨fun r k => ?_, ?_, hloop q hq, hconnected.sessionsOf_perm hruns hq,
      fun commonCfg config file hread => ?_⟩⟩
  · obtain ⟨done, htracks⟩ := Connecting.tracks_within (fails q) r k
    exact htracks.once (PeerTable.priorIds_nodup (hconnected.read q hq))
  · obtain ⟨fuel, hfinal⟩ := hloop q hq
    exact Connecting.eq_entering_of_connect (r := 0) hfinal
  · have hpeers := (Config.peers_of_read hread).symm.trans (hconnected.read q hq)
    exact hconnected.nUnfinishedSession hruns hq (Except.ok.inj hpeers) file

def threeText : Text :=
  "1001 a 6001 1\n1002 b 6002 0\n1003 c 6003 0\n".toList

def threeRecords : List PeerRecord :=
  [⟨1001, ['a'], 6001, 1⟩, ⟨1002, ['b'], 6002, 0⟩, ⟨1003, ['c'], 6003, 0⟩]

def atPort (_ : Text) (port : Int) : Option Int :=
  (threeRecords.find? fun r => r.port = port).map PeerRecord.peerId

def twiceFailing (q : Int) (r i : Nat) : Bool := q = 1003 && i = 0 && r < 2

theorem full_mesh_three :
    ∃ table final, Connected threeRecords table final ∧
      (sessionsOf atPort threeRecords final 1002).Perm [1001, 1003] := by
  have hruns : Runs atPort threeRecords := by
    unfold Runs
    decide
  have hstop : ∀ q ∈ ids threeRecords, ∃ R, ∀ r, R ≤ r → ∀ i,
      twiceFailing q r i = false := by
    intro q _
    refine ⟨2, fun r hr i => ?_⟩
    rw [twiceFailing, decide_eq_false (Nat.not_lt.mpr hr), Bool.and_false]
  have hmesh := full_mesh (show extractAll PeerRecord.extract threeText = threeRecords by
    decide +kernel)
  obtain ⟨table, final, hconnected, -, hall⟩ :=
    hmesh.2 atPort twiceFailing hruns hstop (by decide)
  exact ⟨table, final, hconnected, (hall 1002 (by decide)).2.2.2.1⟩

end CntPeer.Main
