import Mathlib.Algebra.BigOperators.Ring.Finset
import Mathlib.Algebra.Order.BigOperators.Group.Finset
import CntPeer.Foundation.Metered
import CntPeer.PieceRepository.Cache
import CntPeer.Process.Acceptance
import CntPeer.Process.Integrity
import CntPeer.Process.Room

/-!
# Space in the cache

The processes with `n_cached_byte` counted, so that `ensureSpace` can fail.  Two
calls of `get` that overlap count a piece twice, but a session does so only once
for each piece: a cache with room for the file once for each session never runs
out of space.
-/

namespace CntPeer

open CntPeer.Foundation

def Pc.filling : Pc → Option Nat
  | .readPiece i | .cachePiece i _ | .savePiece i _ | .saveCache i _ => some i
  | _ => none

/-- The step, when `ensureSpace` has left `cache`. -/
def Act.keeping (cache : List CacheEntry) : Act → Act
  | .session s (.thread c) =>
      .session s (.thread { c with keep := fun j => (cache.lookup j).isSome })
  | a => a

namespace Proc

def insertion (p : Proc) : Act → Option (Nat × Piece)
  | .session s (.thread _) =>
      match (p.sess s).pc with
      | .cachePiece i d | .saveCache i d => some (i, d)
      | _ => none
  | _ => none

def counted (p : Proc) (n : Int) : CountedRepository :=
  { p.sh.repo with nCachedByte := n }

/-- `n_cached_byte` as a store: an insertion asks `ensureSpace`, which erases in
the order given, and the process crashes when that erases from an empty cache. -/
def cacheMeter (kMemLimit : Nat) : Meter Proc Int Act (List CacheEntry) where
  ask p n a order :=
    match p.insertion a with
    | none => .served a n
    | some (i, d) =>
        if order.Perm p.sh.repo.cache then
          match (p.counted n).ensureSpace kMemLimit order d.length with
          | none => .broken
          | some y =>
              .served (a.keeping y.cache) (y.nCachedByte + p.sh.repo.expectedSize i)
        else .refused
  broken p _ := p.haltWith .crash

inductive CacheStep (p : Proc) (s : Sid) (e : Effect) : Prop
  | stays (goes : e.after.pc = (p.sess s).pc) (repo : e.sh.repo = p.sh.repo)
  | quiet (filling : e.after.pc.filling = none)
      (asking : ∀ i, e.after.pc ≠ .getPiece i) (repo : e.sh.repo = p.sh.repo)
  | asked (i : Nat) (owned : p.sh.own.sv[i]? = some .owned)
      (goes : e.after.pc = .getPiece i) (repo : e.sh.repo = p.sh.repo)
  | missed (i : Nat) (stands : (p.sess s).pc = .getPiece i)
      (missing : p.sh.repo.find i = none) (goes : e.after.pc = .readPiece i)
      (repo : e.sh.repo = p.sh.repo)
  | read (i : Nat) (d : Piece) (stands : (p.sess s).pc = .readPiece i)
      (length : d.length = p.sh.repo.expectedSize i)
      (goes : e.after.pc = .cachePiece i d) (repo : e.sh.repo = p.sh.repo)
  | accepted (i : Nat) (d : Piece) (stands : (p.sess s).pc.accepting = none)
      (requested : p.sh.own.sv[i]? = some .requested)
      (goes : e.after.pc = .savePiece i d) (repo : e.sh.repo = p.sh.repo)
  | written (i : Nat) (d : Piece) (stands : (p.sess s).pc = .savePiece i d)
      (goes : e.after.pc = .saveCache i d) (repo : p.sh.repo.write i d = .ok e.sh.repo)
  | fetched (i : Nat) (d : Piece) (keep : Nat → Bool)
      (stands : (p.sess s).pc = .cachePiece i d) (goes : e.after.pc = .sendPiece i d)
      (repo : e.sh.repo = p.sh.repo.emplace keep i d)
  | stored (i : Nat) (d : Piece) (keep : Nat → Bool)
      (stands : (p.sess s).pc = .saveCache i d) (goes : e.after.pc = .readCount i)
      (repo : e.sh.repo = p.sh.repo.emplace keep i d)

variable {p p' : Proc} {s t : Sid} {i : Nat} {d : Piece} {a : Act}

theorem cacheStep_handle {c : Choice} {ev : Event} (hpc : (p.sess s).pc = .handle ev) :
    CacheStep p s (protocol p s c) := by
  simp only [protocol, hpc]
  cases ev with
  | msgRequest j =>
      simp only [handle]
      split
      · split
        · rename_i hown
          simp only [SyncPieceBitfield.isOwned, decide_eq_true_eq] at hown
          exact .asked j.toNat hown rfl rfl
        · exact .stays rfl rfl
      · exact .stays rfl rfl
  | msgPiece j d =>
      simp only [handle]
      split
      · split
        · rename_i hreq
          simp only [SyncPieceBitfield.isRequested, decide_eq_true_eq] at hreq
          exact .accepted j.toNat d (by rw [hpc]; rfl) hreq rfl rfl
        · exact .stays rfl rfl
      · exact .stays rfl rfl
  | _ =>
      simp only [handle]
      repeat' split
      all_goals first
        | exact .stays rfl rfl
        | exact .quiet rfl (fun _ h => by cases h) rfl

theorem cacheStep_protocol {c : Choice} : CacheStep p s (protocol p s c) := by
  cases hpc : (p.sess s).pc with
  | handle ev => exact cacheStep_handle hpc
  | getPiece i =>
      simp only [protocol, hpc]
      split
      · exact .quiet rfl (fun _ h => by cases h) rfl
      · exact .missed i hpc ‹_› rfl rfl
  | readPiece i =>
      simp only [protocol, hpc]
      split
      · exact .read i _ hpc (PieceRepository.length_of_read ‹_›) rfl rfl
      · exact .stays rfl rfl
  | cachePiece i d =>
      simp only [protocol, hpc]
      exact .fetched i d c.keep hpc rfl rfl
  | savePiece i d =>
      simp only [protocol, hpc]
      split
      · exact .stays rfl rfl
      · exact .written i d hpc rfl ‹_›
  | saveCache i d =>
      simp only [protocol, hpc]
      exact .stored i d c.keep hpc rfl rfl
  | bcastNext i rest =>
      obtain ⟨m, pc, hturn, hstep⟩ := protocol_bcastNext (c := c) hpc
      rw [hstep]
      cases hturn
      all_goals exact .quiet rfl (fun _ h => by cases h) rfl
  | sendTearDown received =>
      simp only [protocol, hpc]
      cases received
      all_goals exact .quiet rfl (fun _ h => by cases h) rfl
  | _ =>
      simp only [protocol, hpc, withDifference, withCollection, drainStep, awaitStep]
      repeat' split
      all_goals first
        | exact .stays rfl rfl
        | exact .stays hpc.symm rfl
        | exact .quiet rfl (fun _ h => by cases h) rfl

theorem cacheStep_sessionEffect {b : SessionAct} :
    CacheStep p s (p.sessionEffect s b) := by
  cases b with
  | thread c => exact cacheStep_protocol
  | _ =>
      simp only [sessionEffect]
      repeat' split
      all_goals first
        | exact .stays rfl rfl
        | exact .quiet rfl (fun _ h => by cases h) rfl

theorem CacheStep.sizes {e : Effect} (h : CacheStep p s e) :
    e.sh.repo.size = p.sh.repo.size ∧ e.sh.repo.pieceSize = p.sh.repo.pieceSize := by
  cases h with
  | written i d stands goes repo =>
      rw [(write_eq_ok repo).2]
      exact ⟨rfl, rfl⟩
  | fetched i d keep stands goes repo | stored i d keep stands goes repo =>
      rw [repo]
      exact ⟨rfl, rfl⟩
  | _ =>
      rename_i repo
      rw [repo]
      exact ⟨rfl, rfl⟩

theorem sizes_step (hstep : p.step a = some p') :
    p'.sh.repo.size = p.sh.repo.size ∧ p'.sh.repo.pieceSize = p.sh.repo.pieceSize := by
  obtain ⟨-, ⟨s, b, -, -, rfl⟩ | hb⟩ := step_cases hstep
  · exact cacheStep_sessionEffect.sizes
  · rw [hb.repo]
    exact ⟨rfl, rfl⟩

theorem expectedSize_step (hstep : p.step a = some p') (i : Nat) :
    p'.sh.repo.expectedSize i = p.sh.repo.expectedSize i := by
  obtain ⟨hsize, hpiece⟩ := sizes_step hstep
  rw [PieceRepository.expectedSize, PieceRepository.expectedSize, hsize, hpiece]

def CacheLocal (sh : Shared) : Pc → Prop
  | .getPiece i | .readPiece i => sh.own.sv[i]? = some .owned
  | .cachePiece i d =>
      sh.own.sv[i]? = some .owned ∧ d.length = sh.repo.expectedSize i
  | .saveCache i d => d.length = sh.repo.expectedSize i
  | _ => True

theorem CacheLocal.mono {sh sh' : Shared} {pc : Pc} (h : CacheLocal sh pc)
    (hadv : Advances sh.own.sv sh'.own.sv)
    (hsize : ∀ i, sh'.repo.expectedSize i = sh.repo.expectedSize i) :
    CacheLocal sh' pc := by
  cases pc with
  | getPiece i | readPiece i => exact hadv.owned _ h
  | cachePiece i d => exact ⟨hadv.owned _ h.1, h.2.trans (hsize i).symm⟩
  | saveCache i d => exact Eq.trans h (hsize i).symm
  | _ => trivial

theorem CacheStep.locals {e : Effect} (h : CacheStep p s e)
    (hl : CacheLocal p.sh (p.sess s).pc) : CacheLocal p.sh e.after.pc := by
  cases h with
  | stays goes repo =>
      rw [goes]
      exact hl
  | quiet filling asking repo =>
      generalize e.after.pc = pc at filling asking
      cases pc with
      | getPiece i => exact absurd rfl (asking i)
      | readPiece _ | cachePiece _ _ | saveCache _ _ => cases filling
      | _ => trivial
  | asked i owned goes repo =>
      rw [goes]
      exact owned
  | missed i stands missing goes repo =>
      rw [stands] at hl
      rw [goes]
      exact hl
  | read i d stands length goes repo =>
      rw [stands] at hl
      rw [goes]
      exact ⟨hl, length⟩
  | written i d stands goes repo =>
      rw [goes]
      exact PieceRepository.length_of_write repo
  | accepted i d stands requested goes repo | fetched i d keep stands goes repo
  | stored i d keep stands goes repo =>
      rw [goes]
      trivial

theorem cacheLocal_reachable {cfg : Config} (h : Reachable cfg p) :
    ∀ s, CacheLocal p.sh (p.sess s).pc := by
  refine h.invariant (I := fun p => ∀ s, CacheLocal p.sh (p.sess s).pc) ?_ ?_
  · intro s
    trivial
  intro p a p' hr ih _ hstep t
  have hadv := (owning_reachable hr).advances hstep
  refine CacheLocal.mono ?_ hadv (expectedSize_step hstep)
  obtain ⟨-, ⟨s, b, rfl, -, rfl⟩ | hb⟩ := step_cases hstep
  · by_cases hts : t = s
    · subst hts
      rw [commit_pc_self]
      exact cacheStep_sessionEffect.locals (ih t)
    · rw [commit_pc_of_ne hts]
      exact ih t
  · rw [hb.pc t]
    exact ih t

/-! ### What has been counted -/

/-- Session `e.1` has put piece `e.2` into the cache, and does so no more. -/
structure Inserted (p : Proc) (e : Sid × Nat) : Prop where
  made : (p.sess e.1).pc ≠ .absent
  cached : (p.sh.repo.find e.2).isSome = true
  spent : (p.sess e.1).pc.filling ≠ some e.2
  closed : p.sh.own.sv[e.2]? = some .owned ∨ (p.sess e.1).pc.accepting = some e.2

theorem CacheStep.spent {e : Effect} {x : Sid × Nat} (h : CacheStep p x.1 e)
    (hx : Inserted p x) : e.after.pc.filling ≠ some x.2 := by
  cases h with
  | stays goes repo =>
      rw [goes]
      exact hx.spent
  | quiet filling asking repo =>
      rw [filling]
      exact nofun
  | missed i stands missing goes repo =>
      rw [goes]
      intro heq
      have hfound := hx.cached
      rw [← Option.some.inj heq, missing] at hfound
      cases hfound
  | read i d stands length goes repo | written i d stands goes repo =>
      have hold := hx.spent
      rw [stands] at hold
      rw [goes]
      exact hold
  | accepted i d stands requested goes repo =>
      rw [goes]
      intro heq
      have hclosed := hx.closed
      rw [← Option.some.inj heq, requested, stands] at hclosed
      rcases hclosed with hclosed | hclosed
      · cases hclosed
      · cases hclosed
  | asked i owned goes repo | fetched i d keep stands goes repo
  | stored i d keep stands goes repo =>
      rw [goes]
      exact nofun

/-- A session that is accepting the piece marks it owned before anything else. -/
theorem AcceptStep.closed {n : Nat} {e : Effect} {es : List PieceEvent}
    (h : AcceptStep p s e es) (hown : Owning n p)
    (hacc : (p.sess s).pc.accepting = some i) :
    e.sh.own.sv[i]? = some .owned ∨ e.after.pc.accepting = some i := by
  cases h with
  | quiet accepting saving locking own => exact .inr (accepting.trans hacc)
  | accepted j d stands range requested goes own =>
      rw [stands] at hacc
      cases hacc
  | saved j d stands goes own =>
      rw [stands] at hacc
      cases hacc
      rcases goes with goes | ⟨-, goes⟩
      · exact .inr (by rw [goes]; rfl)
      · exact .inr (by rw [goes]; rfl)
  | marked j stands goes own =>
      have hl := hown.locals s
      simp only [OwnLocal, stands] at hl
      rw [stands] at hacc
      cases hacc
      have hin : i < p.sh.own.sv.length := by
        rcases hl.2 with hst | hst
        all_goals exact (List.getElem?_eq_some_iff.mp hst).1
      rw [own]
      exact .inl (List.getElem?_set_self hin)
  | broadcast j rest stands goes own =>
      rw [stands] at hacc
      cases hacc

theorem closed_step {n : Nat} (hown : Owning n p) (hstep : p.step a = some p')
    (hacc : (p.sess s).pc.accepting = some i) :
    p'.sh.own.sv[i]? = some .owned ∨ (p'.sess s).pc.accepting = some i := by
  obtain ⟨-, ⟨u, b, rfl, hen, rfl⟩ | hb⟩ := step_cases hstep
  · by_cases hsu : s = u
    · subst hsu
      rw [commit_pc_self]
      exact (acceptStep_sessionEffect hen).closed hown hacc
    · rw [commit_pc_of_ne hsu]
      exact .inr hacc
  · rw [hb.pc]
    exact .inr hacc

theorem Inserted.spent_step {x : Sid × Nat} (h : Inserted p x)
    (hstep : p.step a = some p') : (p'.sess x.1).pc.filling ≠ some x.2 := by
  obtain ⟨-, ⟨s, b, rfl, hen, rfl⟩ | hb⟩ := step_cases hstep
  · by_cases hs : x.1 = s
    · subst hs
      rw [commit_pc_self]
      exact cacheStep_sessionEffect.spent h
    · rw [commit_pc_of_ne hs]
      exact h.spent
  · rw [hb.pc]
    exact h.spent

theorem Inserted.step {n : Nat} {x : Sid × Nat} (h : Inserted p x) (hown : Owning n p)
    (hstep : p.step a = some p')
    (hkept : ∀ i, (p.sh.repo.find i).isSome = true →
      (p'.sh.repo.find i).isSome = true) : Inserted p' x where
  made := created_step hstep h.made
  cached := hkept _ h.cached
  spent := h.spent_step hstep
  closed := by
    rcases h.closed with hclosed | hclosed
    · exact .inl ((hown.advances hstep).owned _ hclosed)
    · exact closed_step hown hstep hclosed

/-- `n` counts each piece once for every session that has put it into the cache. -/
def Booked (p : Proc) (n : Int) : Prop :=
  ∃ G : Finset (Sid × Nat), (∀ x ∈ G, Inserted p x) ∧
    n = (G.sum fun x => p.sh.repo.expectedSize x.2 : Nat)

theorem insertion_eq_some (h : p.insertion a = some (i, d)) :
    ∃ s c, a = .session s (.thread c) ∧
      ((p.sess s).pc = .cachePiece i d ∨ (p.sess s).pc = .saveCache i d) := by
  cases a with
  | session s b =>
      cases b with
      | thread c =>
          refine ⟨s, c, rfl, ?_⟩
          simp only [insertion] at h
          split at h
          all_goals cases h
          · exact .inl ‹_›
          · exact .inr ‹_›
      | _ => cases h
  | _ => cases h

theorem cache_of_insertion (hins : p.insertion a = none) (hstep : p.step a = some p') :
    p'.sh.repo.cache = p.sh.repo.cache := by
  obtain ⟨-, ⟨s, b, rfl, hen, rfl⟩ | hb⟩ := step_cases hstep
  · rw [commit_sh]
    cases b with
    | thread c =>
        have hrepo : RepoStep p.sh.repo (p.sess s).pc (protocol p s c).sh.repo :=
          repoStep_protocol
        simp only [sessionEffect]
        generalize (protocol p s c).sh.repo = r at hrepo
        cases hrepo with
        | same h => rw [h]
        | cached keep i d stands h =>
            rcases stands with hpc | hpc
            all_goals simp [insertion, hpc] at hins
        | written i d stands h => rw [(write_eq_ok h).2]
    | _ =>
        simp only [sessionEffect]
        repeat' split
        all_goals rfl
  · rw [hb.repo]

theorem find_emplace {r : PieceRepository} {keep : Nat → Bool}
    (hkeep : ∀ x ∈ r.cache, keep x.1 = true) (j : Nat) :
    ((r.emplace keep i d).find j).isSome = true ↔ j = i ∨ (r.find j).isSome = true := by
  have hall : (r.cache.filter fun x => keep x.1) = r.cache :=
    List.filter_eq_self.mpr hkeep
  simp only [PieceRepository.find, PieceRepository.emplace, hall]
  by_cases hji : j = i
  · subst hji
    split
    · exact ⟨fun _ => .inl rfl, fun _ => ‹_›⟩
    · simp
  · split
    · simp [hji]
    · have hne : (j == i) = false := by simpa using hji
      simp [List.lookup_cons, hne, hji]

theorem insertion_step {c : Choice}
    (hins : p.insertion (.session s (.thread c)) = some (i, d))
    (hstep : p.step (.session s (.thread c)) = some p') :
    ((p.sess s).pc = .cachePiece i d ∧ (p'.sess s).pc = .sendPiece i d ∨
        (p.sess s).pc = .saveCache i d ∧ (p'.sess s).pc = .readCount i) ∧
      p'.sh.repo = p.sh.repo.emplace c.keep i d := by
  obtain ⟨s', c', heq, hpc⟩ := insertion_eq_some hins
  cases heq
  obtain ⟨-, rfl⟩ := session_step hstep
  constructor
  · rw [commit_pc_self]
    rcases hpc with hpc | hpc
    · exact .inl ⟨hpc, by simp [sessionEffect, protocol, hpc, Effect.after, Session.goto]⟩
    · exact .inr ⟨hpc, by simp [sessionEffect, protocol, hpc, Effect.after, Session.goto]⟩
  · rcases hpc with hpc | hpc
    all_goals simp [sessionEffect, protocol, hpc]

theorem filling_of_insertion {c : Choice}
    (hins : p.insertion (.session s (.thread c)) = some (i, d)) :
    (p.sess s).pc.filling = some i := by
  obtain ⟨s', c', heq, hpc⟩ := insertion_eq_some hins
  cases heq
  rcases hpc with hpc | hpc
  all_goals
    rw [hpc]
    rfl

theorem Booked.step {n : Int} {k : Nat} (h : Booked p n) (hown : Owning k p)
    (hins : p.insertion a = none) (hstep : p.step a = some p') : Booked p' n := by
  obtain ⟨G, hG, hn⟩ := h
  refine ⟨G, fun x hx => (hG x hx).step hown hstep fun i hi => ?_, ?_⟩
  · rwa [PieceRepository.find, cache_of_insertion hins hstep]
  · simp only [expectedSize_step hstep]
    exact hn

/-- When nothing is erased, an insertion counts for a session and a piece that
have not been counted. -/
theorem Booked.insert {n : Int} {k : Nat} {order : List CacheEntry} (h : Booked p n)
    (hown : Owning k p) (hlocal : ∀ s, CacheLocal p.sh (p.sess s).pc)
    (hins : p.insertion a = some (i, d)) (horder : order.Perm p.sh.repo.cache)
    (hstep : p.step (a.keeping order) = some p') :
    Booked p' (n + p.sh.repo.expectedSize i) := by
  obtain ⟨G, hG, hn⟩ := h
  obtain ⟨s, c, rfl, -⟩ := insertion_eq_some hins
  have hfill := filling_of_insertion hins
  obtain ⟨hpc, hrepo⟩ := insertion_step
    (c := { c with keep := fun j => (order.lookup j).isSome }) hins hstep
  have hkeep : ∀ x ∈ p.sh.repo.cache, (order.lookup x.1).isSome = true := by
    intro x hx
    rw [Option.isSome_iff_ne_none, ne_eq, List.lookup_eq_none_iff, not_forall]
    refine ⟨x, fun hnone => ?_⟩
    simpa using hnone (horder.mem_iff.mpr hx)
  have hfind : ∀ j, (p'.sh.repo.find j).isSome = true ↔
      j = i ∨ (p.sh.repo.find j).isSome = true := by
    intro j
    rw [hrepo]
    exact find_emplace hkeep j
  have hnew : (s, i) ∉ G := fun hmem => (hG _ hmem).spent hfill
  refine ⟨Insert.insert (s, i) G, fun x hx => ?_, ?_⟩
  · rcases Finset.mem_insert.mp hx with rfl | hx
    · refine ⟨?_, (hfind i).mpr (.inl rfl), ?_, ?_⟩
      · rcases hpc with ⟨-, hpc⟩ | ⟨-, hpc⟩
        all_goals
          rw [hpc]
          exact nofun
      · rcases hpc with ⟨-, hpc⟩ | ⟨-, hpc⟩
        all_goals
          rw [hpc]
          exact nofun
      · rcases hpc with ⟨hold, -⟩ | ⟨-, hpc⟩
        · have howned := hlocal s
          rw [hold] at howned
          exact .inl ((hown.advances hstep).owned _ howned.1)
        · exact .inr (by rw [hpc]; rfl)
    · exact (hG x hx).step hown hstep fun j hj => (hfind j).mpr (.inr hj)
  · simp only [expectedSize_step hstep]
    rw [Finset.sum_insert hnew, hn]
    push_cast
    omega

/-! ### The bound -/

theorem sum_expectedSize_le (r : PieceRepository) (A : Finset Nat) :
    A.sum r.expectedSize ≤ r.size := by
  obtain ⟨m, hm⟩ := A.exists_nat_subset_range
  refine (Finset.sum_le_sum_of_subset hm).trans ?_
  have hsum : (Finset.range m).sum r.expectedSize = min (m * r.pieceSize) r.size := by
    clear hm
    induction m with
    | zero => simp
    | succ m ih =>
        rw [Finset.sum_range_succ, ih, PieceRepository.expectedSize, Nat.succ_mul]
        omega
  rw [hsum]
  exact Nat.min_le_right _ _

theorem sum_entered_le {r : PieceRepository} {T : Finset Sid} {G : Finset (Sid × Nat)}
    (hG : ∀ x ∈ G, x.1 ∈ T) :
    (G.sum fun x => r.expectedSize x.2) ≤ T.card * r.size := by
  have hsub : G ⊆ T ×ˢ G.image Prod.snd := by
    intro x hx
    exact Finset.mem_product.mpr ⟨hG x hx, Finset.mem_image_of_mem _ hx⟩
  calc (G.sum fun x => r.expectedSize x.2)
      ≤ (T ×ˢ G.image Prod.snd).sum fun x => r.expectedSize x.2 :=
        Finset.sum_le_sum_of_subset hsub
    _ = T.sum fun _ => (G.image Prod.snd).sum r.expectedSize := Finset.sum_product _ _ _
    _ ≤ T.sum fun _ => r.size :=
        Finset.sum_le_sum fun _ _ => sum_expectedSize_le r _
    _ = T.card * r.size := Finset.sum_const_nat fun _ _ => rfl

theorem length_of_insertion (hlocal : ∀ s, CacheLocal p.sh (p.sess s).pc)
    (hins : p.insertion a = some (i, d)) : d.length = p.sh.repo.expectedSize i := by
  obtain ⟨s, c, rfl, hpc⟩ := insertion_eq_some hins
  have hl := hlocal s
  rcases hpc with hpc | hpc
  all_goals rw [hpc] at hl
  · exact hl.2
  · exact hl

/-- An insertion counts no more than the file once for each session. -/
theorem Booked.room {n : Int} {k : Nat} (h : Booked p n)
    (hlocal : ∀ s, CacheLocal p.sh (p.sess s).pc)
    (hfew : AtMost k p) (hins : p.insertion a = some (i, d)) :
    n + d.length ≤ (k * p.sh.repo.size : Nat) := by
  obtain ⟨G, hG, hn⟩ := h
  obtain ⟨T, hT, hcard⟩ := hfew
  obtain ⟨s, c, rfl, -⟩ := insertion_eq_some hins
  have hfill := filling_of_insertion hins
  have hlen := length_of_insertion hlocal hins
  have hmade : (p.sess s).pc ≠ .absent := by
    intro habs
    rw [habs] at hfill
    cases hfill
  have hnew : (s, i) ∉ G := fun hmem => (hG _ hmem).spent hfill
  have hle := sum_entered_le (r := p.sh.repo) (T := T) (G := Insert.insert (s, i) G)
    fun x hx => by
      rcases Finset.mem_insert.mp hx with rfl | hx
      · exact hT _ hmade
      · exact hT _ (hG x hx).made
  rw [Finset.sum_insert hnew] at hle
  have hmul := Nat.mul_le_mul_right p.sh.repo.size hcard
  rw [hn, hlen, ← Int.natCast_add, Int.ofNat_le, Nat.add_comm]
  exact hle.trans hmul

/-! ### Runs -/

variable {kMemLimit k : Nat} {cfg : Config} {x x' : Proc × Int} {n n' : Int}
  {a' : Act} {order : List CacheEntry}

abbrev CountedReachable (kMemLimit : Nat) (cfg : Config) (x : Proc × Int) : Prop :=
  Foundation.Reachable ((cacheMeter kMemLimit).step step) (init cfg, 0) x

theorem ask_broken (h : (cacheMeter kMemLimit).ask p n a order = .broken) :
    ∃ i d, p.insertion a = some (i, d) ∧ order.Perm p.sh.repo.cache ∧
      (p.counted n).ensureSpace kMemLimit order d.length = none := by
  simp only [cacheMeter] at h
  split at h
  · cases h
  · split at h
    · split at h
      · exact ⟨_, _, ‹_›, ‹_›, ‹_›⟩
      · cases h
    · cases h

theorem ask_served (h : (cacheMeter kMemLimit).ask p n a order = .served a' n') :
    (p.insertion a = none ∧ a' = a ∧ n' = n) ∨
      ∃ i d y, p.insertion a = some (i, d) ∧ order.Perm p.sh.repo.cache ∧
        (p.counted n).ensureSpace kMemLimit order d.length = some y ∧
        a' = a.keeping y.cache ∧ n' = y.nCachedByte + p.sh.repo.expectedSize i := by
  simp only [cacheMeter] at h
  split at h
  · cases h
    exact .inl ⟨‹_›, rfl, rfl⟩
  · split at h
    · split at h
      · cases h
      · cases h
        exact .inr ⟨_, _, _, ‹_›, ‹_›, ‹_›, rfl, rfl⟩
    · cases h

theorem ask_manner (p : Proc) (n : Int) (a : Act) :
    ∃ order, (cacheMeter kMemLimit).ask p n a order ≠ .refused := by
  refine ⟨p.sh.repo.cache, ?_⟩
  simp only [cacheMeter]
  split
  · exact nofun
  · rw [if_pos (.refl _)]
    split
    · exact nofun
    · exact nofun

theorem free_of_insertion (h : p.insertion a = none) : (cacheMeter kMemLimit).Free p a :=
  ⟨[], fun n => by simp [cacheMeter, h]⟩

theorem broken_halts : ((cacheMeter kMemLimit).broken p a).sh.halt ≠ none := nofun

theorem step_running (hstep : p.step a = some p') : p.sh.halt = none :=
  (step_cases hstep).1

theorem CountedReachable.reachable (h : CountedReachable kMemLimit cfg x)
    (hrun : x.1.sh.halt = none) : Reachable cfg x.1 :=
  Meter.reachable_base (U := fun p : Proc => p.sh.halt = none)
    (fun _ _ _ _ _ hup => broken_halts hup) (fun _ _ _ hstep _ => step_running hstep)
    h hrun

theorem nodup_emplace {r : PieceRepository} {keep : Nat → Bool}
    (h : (r.cache.map Prod.fst).Nodup) :
    ((r.emplace keep i d).cache.map Prod.fst).Nodup := by
  have hkept : ((r.cache.filter fun e => keep e.1).map Prod.fst).Nodup :=
    h.sublist (List.filter_sublist.map _)
  simp only [PieceRepository.emplace]
  split
  · exact hkept
  · rename_i hnew
    rw [Option.not_isSome_iff_eq_none, List.lookup_eq_none_iff] at hnew
    refine List.nodup_cons.mpr ⟨fun hmem => ?_, hkept⟩
    obtain ⟨e, he, heq⟩ := List.mem_map.mp hmem
    simpa [heq] using hnew e he

theorem nodup_cache_reachable (h : Reachable cfg p) :
    (p.sh.repo.cache.map Prod.fst).Nodup := by
  refine h.invariant (I := fun p => (p.sh.repo.cache.map Prod.fst).Nodup)
    List.nodup_nil ?_
  intro p a p' _ ih _ hstep
  obtain ⟨-, ⟨s, b, rfl, -, rfl⟩ | hb⟩ := step_cases hstep
  · have hrepo := repoStep_sessionEffect (p := p) (s := s) (a := b)
    rw [commit_sh]
    generalize (p.sessionEffect s b).sh.repo = r at hrepo
    cases hrepo with
    | same h => rwa [h]
    | cached keep i d stands h =>
        rw [h]
        exact nodup_emplace ih
    | written i d stands h =>
        rw [(write_eq_ok h).2]
        exact ih
  · rwa [hb.repo]

/-- What is served is the section of `get` and of `save` under the writer lock. -/
theorem insert_of_served (hr : Reachable cfg p) (hins : p.insertion a = some (i, d))
    (hask : (cacheMeter kMemLimit).ask p n a order = .served a' n')
    (hstep : p.step a' = some p') :
    ∃ y, (p.counted n).insert kMemLimit order i d (p.sh.repo.expectedSize i) = some y ∧
      y.nCachedByte = n' ∧ ∀ j, p'.sh.repo.find j = y.find j := by
  rcases ask_served hask with ⟨hnone, -, -⟩ | ⟨i', d', y, hsome, horder, hspace, rfl, rfl⟩
  · rw [hins] at hnone
    cases hnone
  · rw [hins] at hsome
    cases hsome
    obtain ⟨s, c, rfl, -⟩ := insertion_eq_some hins
    obtain ⟨-, hrepo⟩ := insertion_step
      (c := { c with keep := fun j => (y.cache.lookup j).isSome }) hins hstep
    refine ⟨_, by rw [CountedRepository.insert, hspace]; rfl, rfl, fun j => ?_⟩
    rw [hrepo]
    exact CountedRepository.ensureSpace_emplace (nodup_cache_reachable hr) horder hspace j

theorem booked_step (hr : Reachable cfg x.1) (h : Booked x.1 x.2)
    (hfew : AtMost k x.1) (hfit : k * x.1.sh.repo.size ≤ kMemLimit)
    (hask : (cacheMeter kMemLimit).ask x.1 x.2 a order = .served a' x'.2)
    (hstep : x.1.step a' = some x'.1) : Booked x'.1 x'.2 := by
  have hown := owning_reachable hr
  have hlocal := cacheLocal_reachable hr
  rcases ask_served hask with ⟨hins, rfl, hn⟩ | ⟨i, d, y, hins, horder, hspace, rfl, hn⟩
  · rw [hn]
    exact h.step hown hins hstep
  · have hroom := (h.room hlocal hfew hins).trans (Int.ofNat_le.mpr hfit)
    rw [CountedRepository.ensureSpace_room (x := x.1.counted x.2) hroom] at hspace
    cases hspace
    rw [hn]
    exact h.insert hown hlocal hins horder hstep

theorem booked_reachable (h : CountedReachable kMemLimit cfg x)
    (hrun : x.1.sh.halt = none) (hfew : AtMost k x.1)
    (hfit : k * x.1.sh.repo.size ≤ kMemLimit) : Booked x.1 x.2 := by
  refine h.invariant (I := fun x => x.1.sh.halt = none → AtMost k x.1 →
    k * x.1.sh.repo.size ≤ kMemLimit → Booked x.1 x.2) ?_ ?_ hrun hfew hfit
  · intro _ _ _
    exact ⟨∅, fun _ hx => absurd hx (Finset.notMem_empty _), rfl⟩
  · intro x l x' hreach ih _ hstep hrun hfew hfit
    rcases Meter.step_cases hstep with ⟨-, rfl⟩ | ⟨a, hask, hbase⟩
    · cases hrun
    · have hbefore := step_running hbase
      have hold := hfew.of_step hbase
      rw [(sizes_step hbase).1] at hfit
      have hr := CountedReachable.reachable hreach hbefore
      exact booked_step hr (ih hbefore hold hfit) hold hfit hask hbase

/-- With room for the file once for each session, `ensureSpace` always succeeds. -/
theorem ensureSpace_succeeds (h : CountedReachable kMemLimit cfg x)
    (hrun : x.1.sh.halt = none) (hfew : AtMost k x.1)
    (hfit : k * x.1.sh.repo.size ≤ kMemLimit) (a : Act) (order : List CacheEntry) :
    (cacheMeter kMemLimit).ask x.1 x.2 a order ≠ .broken := by
  intro hbroken
  obtain ⟨i, d, hins, -, hnone⟩ := ask_broken hbroken
  have hlocal := cacheLocal_reachable (CountedReachable.reachable h hrun)
  have hroom := ((booked_reachable h hrun hfew hfit).room hlocal hfew hins).trans
    (Int.ofNat_le.mpr hfit)
  rw [CountedRepository.ensureSpace_room (x := x.1.counted x.2) hroom] at hnone
  cases hnone

end Proc

end CntPeer
