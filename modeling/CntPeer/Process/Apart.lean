import CntPeer.Process.Space

/-!
# Calls of `get` that do not overlap

When no two sessions of a process read the same piece from the file at once, an
insertion finds its piece missing.  So `n_cached_byte` is the size of the cache,
and `ensureSpace` succeeds for every piece that is not larger than the limit.
-/

namespace CntPeer

open CntPeer.Foundation

def Pc.seeking : Pc → Option Nat
  | .getPiece i => some i
  | _ => none

/-- The piece that a thread at this place has missed and not yet cached. -/
def Pc.fetching : Pc → Option Nat
  | .readPiece i | .cachePiece i _ => some i
  | _ => none

theorem Pc.filling_of_fetching {pc : Pc} {i : Nat} (h : pc.fetching = some i) :
    pc.filling = some i := by
  cases pc with
  | readPiece _ | cachePiece _ _ => exact h
  | _ => cases h

namespace Proc

/-- No session misses a piece while another one fetches it. -/
def Apart (p : Proc) : Act → Prop
  | .session s (.thread _) =>
      ∀ i ∈ (p.sess s).pc.seeking, p.sh.repo.find i = none →
        ∀ e ∈ p.sh.sc.ss, (p.sess e.s).pc.fetching ≠ some i
  | _ => True

instance (p : Proc) : (a : Act) → Decidable (Apart p a)
  | .session _ (.thread _) => inferInstanceAs (Decidable (∀ i ∈ Pc.seeking _, _))
  | .session _ (.create ..) | .session _ (.recvHandshake _)
  | .session _ (.recvBitfield _) | .session _ (.scan _)
  | .session _ (.readFails _) | .session _ (.received _)
  | .pnTick _ | .optTick _ | .cleanUp | .exit => .isTrue trivial

/-- One session at a time is on its way to cache a piece, and what is cached is
owned, or by the session that has accepted it. -/
structure Unshared (p : Proc) : Prop where
  missing : ∀ s i, (p.sess s).pc.fetching = some i → p.sh.repo.find i = none
  alone : ∀ s t i, (p.sess s).pc.fetching = some i →
    (p.sess t).pc.fetching = some i → s = t
  cached : ∀ i, (p.sh.repo.find i).isSome = true →
    p.sh.own.sv[i]? = some .owned ∨
      ∃ s, (p.sess s).pc.accepting = some i ∧ (p.sess s).pc.filling ≠ some i

structure Singly (p : Proc) : Prop where
  requested : ∀ s i, (p.sess s).pc.accepting = some i →
    p.sh.own.sv[i]? = some .requested
  alone : ∀ s t i, (p.sess s).pc.accepting = some i →
    (p.sess t).pc.accepting = some i → s = t

variable {p p' : Proc} {s t : Sid} {i : Nat} {d : Piece} {a : Act} {cfg : Config}

theorem owned_of_fetching (hlocal : ∀ s, CacheLocal p.sh (p.sess s).pc)
    (h : (p.sess s).pc.fetching = some i) : p.sh.own.sv[i]? = some .owned := by
  have hl := hlocal s
  generalize (p.sess s).pc = pc at h hl
  cases pc with
  | readPiece _ =>
      cases h
      exact hl
  | cachePiece _ _ =>
      cases h
      exact hl.1
  | _ => cases h

theorem fetching_runnable (h : (p.sess s).pc.fetching = some i) :
    runnable p s = true ∧ (p.sess s).pc ≠ .loop ∧ (p.sess s).pc.seeking = none := by
  cases hpc : (p.sess s).pc with
  | readPiece _ | cachePiece _ _ => exact ⟨by simp [runnable, hpc], by simp, rfl⟩
  | _ =>
      rw [hpc] at h
      cases h

theorem Unshared.find_eq_none (h : Unshared p) (hsingly : Singly p)
    (hins : p.insertion a = some (i, d)) : p.sh.repo.find i = none := by
  obtain ⟨s, c, rfl, hpc | hpc⟩ := insertion_eq_some hins
  · exact h.missing s i (by rw [hpc]; rfl)
  · have hacc : (p.sess s).pc.accepting = some i := by
      rw [hpc]
      rfl
    rw [← Option.not_isSome_iff_eq_none]
    intro hfound
    rcases h.cached i hfound with howned | ⟨t, htacc, hfill⟩
    · rw [hsingly.requested s i hacc] at howned
      cases howned
    · cases hsingly.alone s t i hacc htacc
      exact hfill (by rw [hpc]; rfl)

theorem find_step (hstep : p.step a = some p')
    (hfound : (p'.sh.repo.find i).isSome = true) :
    (p.sh.repo.find i).isSome = true ∨
      ∃ s c d, a = .session s (.thread c) ∧ p.insertion a = some (i, d) := by
  cases hins : p.insertion a with
  | none =>
      left
      rwa [PieceRepository.find, cache_of_insertion hins hstep] at hfound
  | some e =>
      obtain ⟨j, d⟩ := e
      obtain ⟨s, c, rfl, -⟩ := insertion_eq_some hins
      obtain ⟨-, hrepo⟩ := insertion_step hins hstep
      rw [hrepo] at hfound
      obtain ⟨d', hd'⟩ := Option.isSome_iff_exists.mp hfound
      rcases PieceRepository.mem_cache_emplace
        (PieceRepository.mem_cache_of_find hd') with heq | hmem
      · cases heq
        exact .inr ⟨s, c, _, rfl, rfl⟩
      · left
        rw [Option.isSome_iff_ne_none, ne_eq, PieceRepository.find,
          List.lookup_eq_none_iff, not_forall]
        exact ⟨_, fun hnone => by simpa using hnone hmem⟩

/-- A step makes its own session fetch a piece at most, which is then missing and
fetched by nobody else. -/
theorem fetching_step (hlife : Lifecycle p) (hstep : p.step a = some p')
    (hapart : Apart p a) (hfetch : (p'.sess t).pc.fetching = some i) :
    (p.sess t).pc.fetching = some i ∨
      (∃ b, a = .session t b) ∧ p.sh.repo.find i = none ∧
        ∀ u, (p.sess u).pc.fetching ≠ some i := by
  obtain ⟨-, ⟨s, b, rfl, hen, rfl⟩ | hb⟩ := step_cases hstep
  · by_cases hts : t = s
    · subst hts
      rw [commit_pc_self] at hfetch
      cases b with
      | thread c =>
          have hcache := cacheStep_sessionEffect (p := p) (s := t) (b := .thread c)
          generalize p.sessionEffect t (.thread c) = e at hcache hfetch
          cases hcache with
          | stays goes repo => exact .inl (goes ▸ hfetch)
          | quiet filling asking repo =>
              rw [Pc.filling_of_fetching hfetch] at filling
              cases filling
          | missed j stands missing goes repo =>
              rw [goes] at hfetch
              cases hfetch
              refine .inr ⟨⟨_, rfl⟩, missing, fun u hu => ?_⟩
              have hmade : (p.sess u).pc ≠ .absent ∧ (p.sess u).pc ≠ .ended := by
                constructor
                all_goals
                  intro hpc
                  rw [hpc] at hu
                  cases hu
              exact hapart i (by rw [stands]; rfl) missing _
                (hlife.live u hmade.1 hmade.2) hu
          | read j d stands length goes repo =>
              rw [goes] at hfetch
              cases hfetch
              exact .inl (by rw [stands]; rfl)
          | asked j owned goes repo | accepted j d stands requested goes repo
          | written j d stands goes repo | fetched j d keep stands goes repo
          | stored j d keep stands goes repo =>
              rw [goes] at hfetch
              cases hfetch
      | _ =>
          left
          simp only [sessionEffect] at hfetch
          repeat' split at hfetch
          all_goals first
            | exact hfetch
            | cases hfetch
    · rw [commit_pc_of_ne hts] at hfetch
      exact .inl hfetch
  · rw [hb.pc] at hfetch
    exact .inl hfetch

theorem Unshared.fetched (h : Unshared p) (hsingly : Singly p)
    (hlocal : ∀ s, CacheLocal p.sh (p.sess s).pc) {c : Choice}
    (hins : p.insertion (.session s (.thread c)) = some (i, d))
    (hstep : p.step (.session s (.thread c)) = some p') :
    (p'.sess t).pc.fetching ≠ some i := by
  obtain ⟨hpc, -⟩ := insertion_step hins hstep
  intro hfetch
  by_cases hts : t = s
  · subst hts
    rcases hpc with ⟨-, hpc⟩ | ⟨-, hpc⟩
    all_goals
      rw [hpc] at hfetch
      cases hfetch
  · obtain ⟨-, rfl⟩ := session_step hstep
    rw [commit_pc_of_ne hts] at hfetch
    rcases hpc with ⟨hpc, -⟩ | ⟨hpc, -⟩
    · exact hts (h.alone t s i hfetch (by rw [hpc]; rfl))
    · have howned := owned_of_fetching hlocal hfetch
      rw [hsingly.requested s i (by rw [hpc]; rfl)] at howned
      cases howned

theorem Unshared.step (h : Unshared p) (hr : Reachable cfg p) (hsingly : Singly p)
    (hapart : Apart p a) (hstep : p.step a = some p') : Unshared p' := by
  have hlife := lifecycle_reachable hr
  have hown := owning_reachable hr
  have hlocal := cacheLocal_reachable hr
  refine ⟨fun t i hfetch => ?_, fun t u i ht hu => ?_, fun i hfound => ?_⟩
  · have hmissing : p.sh.repo.find i = none := by
      rcases fetching_step hlife hstep hapart hfetch with hold | ⟨-, hnone, -⟩
      · exact h.missing t i hold
      · exact hnone
    rw [← Option.not_isSome_iff_eq_none]
    intro hfound
    rcases find_step hstep hfound with hold | ⟨s, c, d, rfl, hins⟩
    · rw [hmissing] at hold
      cases hold
    · exact h.fetched hsingly hlocal hins hstep hfetch
  · rcases fetching_step hlife hstep hapart ht with hold | ⟨⟨b, rfl⟩, -, hnone⟩
    all_goals
      rcases fetching_step hlife hstep hapart hu with hold' | ⟨⟨b', heq⟩, -, hnone'⟩
    · exact h.alone t u i hold hold'
    · exact absurd hold (hnone' t)
    · exact absurd hold' (hnone u)
    · cases heq
      rfl
  · rcases find_step hstep hfound with hold | ⟨s, c, d, rfl, hins⟩
    · rcases h.cached i hold with howned | ⟨s, hacc, hfill⟩
      · exact .inl ((hown.advances hstep).owned i howned)
      · have hmade : (p.sess s).pc ≠ .absent := by
          intro hpc
          rw [hpc] at hacc
          cases hacc
        have hinserted : Inserted p (s, i) := ⟨hmade, hold, hfill, .inr hacc⟩
        exact (closed_step hown hstep hacc).imp_right fun hacc' =>
          ⟨s, hacc', hinserted.spent_step hstep⟩
    · obtain ⟨⟨hpc, -⟩ | ⟨-, hpc⟩, -⟩ := insertion_step hins hstep
      · have howned := owned_of_fetching hlocal (s := s) (i := i) (by rw [hpc]; rfl)
        exact .inl ((hown.advances hstep).owned i howned)
      · exact .inr ⟨s, by rw [hpc]; rfl, by rw [hpc]; exact nofun⟩

theorem unshared_init : Unshared (init cfg) where
  missing _ _ h := by cases h
  alone _ _ _ h := by cases h
  cached _ h := by cases h

/-! ### The counter -/

variable {kMemLimit : Nat} {n n' : Int} {a' : Act} {order : List CacheEntry}

theorem expectedSize_le (i : Nat) :
    p.sh.repo.expectedSize i ≤ min p.sh.repo.pieceSize p.sh.repo.size :=
  le_min (Nat.min_le_left _ _) ((Nat.min_le_right _ _).trans (Nat.sub_le _ _))

/-- With the counter exact there is space for every piece that the limit admits. -/
theorem exact_serves (hr : Reachable cfg p) (hexact : (p.counted n).Exact)
    (hfit : min p.sh.repo.pieceSize p.sh.repo.size ≤ kMemLimit) :
    (cacheMeter kMemLimit).ask p n a order ≠ .broken := by
  intro hbroken
  obtain ⟨i, d, hins, horder, hnone⟩ := ask_broken hbroken
  have hlen := length_of_insertion (cacheLocal_reachable hr) hins
  obtain ⟨kept, -, hspace⟩ := CountedRepository.ensureSpace_exact (x := p.counted n)
    hexact horder (hlen.trans_le ((expectedSize_le i).trans hfit))
  rw [hspace] at hnone
  cases hnone

/-- An insertion of what was missing keeps the counter exact. -/
theorem exact_step (hr : Reachable cfg p) (h : Unshared p) (hsingly : Singly p)
    (hexact : (p.counted n).Exact)
    (hfit : min p.sh.repo.pieceSize p.sh.repo.size ≤ kMemLimit)
    (hask : (cacheMeter kMemLimit).ask p n a order = .served a' n')
    (hstep : p.step a' = some p') : (p'.counted n').Exact := by
  rcases ask_served hask with ⟨hins, rfl, rfl⟩ | ⟨i, d, y, hins, horder, hspace, rfl, rfl⟩
  · rw [CountedRepository.Exact, counted] at hexact ⊢
    rw [cache_of_insertion hins hstep]
    exact hexact
  · have hnodup := nodup_cache_reachable hr
    have hlen := length_of_insertion (cacheLocal_reachable hr) hins
    have hkept := CountedRepository.kept_perm (x := p.counted n) hnodup horder hspace
    obtain ⟨kept, -, hexactly⟩ := CountedRepository.ensureSpace_exact (x := p.counted n)
      hexact horder (hlen.trans_le ((expectedSize_le i).trans hfit))
    rw [hexactly] at hspace
    cases hspace
    have hnone := h.find_eq_none hsingly hins
    obtain ⟨s, c, rfl, -⟩ := insertion_eq_some hins
    obtain ⟨-, hrepo⟩ := insertion_step
      (c := { c with keep := fun j => (kept.lookup j).isSome }) hins hstep
    have hnew : (p.sh.repo.cache.filter fun e => (kept.lookup e.1).isSome).lookup i =
        none := by
      rw [List.lookup_eq_none_iff]
      intro e he
      exact List.lookup_eq_none_iff.mp hnone e (List.mem_filter.mp he).1
    have hcache : p'.sh.repo.cache =
        (i, d) :: p.sh.repo.cache.filter fun e => (kept.lookup e.1).isSome := by
      rw [hrepo]
      simp [PieceRepository.emplace, hnew]
    have hbytes : cachedBytes p'.sh.repo.cache = d.length + cachedBytes kept := by
      rw [hcache]
      exact (total_cons _ _).trans (congrArg (d.length + ·) (total_perm hkept))
    change (cachedBytes kept : Int) + p.sh.repo.expectedSize i =
      cachedBytes p'.sh.repo.cache
    rw [hbytes, hlen]
    omega

end Proc

end CntPeer
