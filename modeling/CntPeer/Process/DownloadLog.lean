import Mathlib.Data.List.Count
import CntPeer.Process.Acceptance

/-!
# The log of downloads

`MsgPiece` reads the counter, writes its entry and calls `setOwned` in three
steps.  What the entries say is traced here for runs in which a piece is accepted
by one thread only, while it is requested.
-/

namespace CntPeer

open CntPeer.Foundation

def LogEntry.pieceId? : LogEntry → Option Nat
  | pieceDownloaded _ i _ => some i
  | fileDownloaded => none

def LogEntry.numOwnedPiece? : LogEntry → Option Nat
  | pieceDownloaded _ _ n => some n
  | fileDownloaded => none

def downloads (log : List LogEntry) : List Nat := log.filterMap LogEntry.pieceId?

def reported (log : List LogEntry) : List Nat := log.filterMap LogEntry.numOwnedPiece?

def Pc.reads : Pc → Bool
  | .readCount _ => true
  | _ => false

namespace Proc

variable {p p' : Proc} {s t : Sid} {i : Nat}

/-- A piece is accepted by one thread only, while it is requested. -/
structure Exclusive (p : Proc) : Prop where
  requested : ∀ s i, (p.sess s).pc.accepting = some i →
    p.sh.own.sv[i]? = some .requested
  alone : ∀ s t i, (p.sess s).pc.accepting = some i →
    (p.sess t).pc.accepting = some i → s = t

/-- Each piece that is counted has one entry, and so has a piece that is logged
and not yet counted; the last piece is logged before the file. -/
structure Entered (n : Nat) (p : Proc) : Prop where
  inRange : ∀ i ∈ downloads p.sh.log, i < n
  owned : ∀ i, p.sh.own.settled[i]? = some .owned → (downloads p.sh.log).count i = 1
  counting : ∀ s i, (p.sess s).pc = .countOwned i → (downloads p.sh.log).count i = 1
  other : ∀ i, p.sh.own.settled[i]? ≠ some .owned →
    (∀ s, (p.sess s).pc ≠ .countOwned i) → (downloads p.sh.log).count i = 0
  last : ∀ pre post, p.sh.log = pre ++ .fileDownloaded :: post →
    (downloads pre).Perm (List.range n)

/-- The entries are numbered from one; a thread that has read the counter is the
only one, and the counter has not moved. -/
structure Numbered (p : Proc) : Prop where
  alone : ∀ s t, (p.sess s).pc.reports → (p.sess t).pc.reports → s = t
  logging : ∀ s i n, (p.sess s).pc = .logPiece i n → n = p.sh.own.nOwned + 1
  counting : ∀ s i, (p.sess s).pc = .countOwned i →
    reported p.sh.log = List.range' 1 (p.sh.own.nOwned + 1)
  other : (∀ s i, (p.sess s).pc ≠ .countOwned i) →
    reported p.sh.log = List.range' 1 p.sh.own.nOwned

/-- No session reads the counter for its entry while another one has read it and
not yet incremented it. -/
def CountsAlone (p : Proc) : Act → Prop
  | .session s (.thread _) => (p.sess s).pc.reads = true →
      ∀ e ∈ p.sh.sc.ss, e.s ≠ s → (p.sess e.s).pc.reports = false
  | _ => True

instance (p : Proc) : (a : Act) → Decidable (CountsAlone p a)
  | .session _ (.thread _) => inferInstanceAs (Decidable (_ → _))
  | .session _ (.create ..) | .session _ (.recvHandshake _)
  | .session _ (.recvBitfield _) | .session _ (.scan _)
  | .session _ (.readFails _) | .session _ (.received _)
  | .pnTick _ | .optTick _ | .cleanUp | .exit => .isTrue trivial

theorem Exclusive.not_owned {n : Nat} (h : Exclusive p) (hown : Owning n p)
    (hacc : (p.sess s).pc.accepting = some i) (hpc : (p.sess s).pc ≠ .markOwned i) :
    p.sh.own.settled[i]? ≠ some .owned := by
  have hreq := h.requested s i hacc
  intro howned
  unfold SyncPieceBitfield.settled at howned
  split at howned
  · rw [hreq] at howned
    cases howned
  · rename_i t j hsetting
    by_cases hji : j = i
    · subst j
      have hmark := hown.mutex t i hsetting
      have hts := h.alone t s i (by rw [hmark]; rfl) hacc
      exact hpc (hts ▸ hmark)
    · rw [List.getElem?_set_ne hji, hreq] at howned
      cases howned

theorem uncounted {sh : Shared} {x : Session} {own' : SyncPieceBitfield Sid} {pc' : Pc}
    (h : OwnStep sh.own s x.pc own' pc') (hl : OwnLocal sh s x)
    (hpc : ∀ i, x.pc = .countOwned i → pc' ≠ .markOwned i) :
    own'.nOwned = sh.own.nOwned ∧
      ∀ j : Nat, own'.settled[j]? = some .owned ↔ sh.own.settled[j]? = some .owned := by
  cases h with
  | same stays h =>
      rw [h]
      exact ⟨rfl, fun j => .rfl⟩
  | requested i stands free h =>
      simp only [OwnLocal, stands] at hl
      subst own'
      refine ⟨rfl, fun j => ?_⟩
      simp only [SyncPieceBitfield.settled, SyncPieceBitfield.setRequested, free]
      by_cases hij : i = j
      · subst j
        rw [hl.2, List.getElem?_set_self (List.getElem?_eq_some_iff.mp hl.2).1]
        constructor
        all_goals
          intro howned
          cases howned
      · rw [List.getElem?_set_ne hij]
  | counted i stands goes free inRange h => exact (hpc i stands goes).elim
  | marked i stands h =>
      simp only [OwnLocal, stands] at hl
      subst own'
      refine ⟨rfl, fun j => ?_⟩
      simp only [SyncPieceBitfield.settled, SyncPieceBitfield.markOwned, hl.1]

def OnlyMoves (s : Sid) (p p' : Proc) : Prop :=
  ∀ t, t ≠ s → (p'.sess t).pc = (p.sess t).pc

theorem onlyMoves_commit {e : Effect} : OnlyMoves s p (p.commit s e) :=
  fun _ ht => commit_pc_of_ne ht

theorem OnlyMoves.after {pc : Pc} (h : OnlyMoves s p p') (ht : (p.sess t).pc = pc)
    (hs : (p.sess s).pc ≠ pc) : (p'.sess t).pc = pc := by
  have hts : t ≠ s := by
    rintro rfl
    exact hs ht
  exact (h t hts).trans ht

theorem OnlyMoves.before {pc : Pc} (h : OnlyMoves s p p') (ht : (p'.sess t).pc = pc)
    (hs : (p'.sess s).pc ≠ pc) : (p.sess t).pc = pc := by
  have hts : t ≠ s := by
    rintro rfl
    exact hs ht
  exact (h t hts).symm.trans ht

theorem OnlyMoves.reports_only (h : OnlyMoves s p p')
    (hquiet : ∀ t, t ≠ s → (p.sess t).pc.reports = false) :
    ∀ t, (p'.sess t).pc.reports = true → t = s := by
  intro t ht
  by_contra hts
  rw [h t hts, hquiet t hts] at ht
  cases ht

theorem Entered.kept {n : Nat} (h : Entered n p) (hlog : p'.sh.log = p.sh.log)
    (howned : ∀ j : Nat, p'.sh.own.settled[j]? = some .owned ↔
      p.sh.own.settled[j]? = some .owned)
    (hcounting : ∀ t j, (p'.sess t).pc = .countOwned j ↔ (p.sess t).pc = .countOwned j) :
    Entered n p' where
  inRange := hlog ▸ h.inRange
  owned j hj := hlog ▸ h.owned j ((howned j).mp hj)
  counting t j hpc := hlog ▸ h.counting t j ((hcounting t j).mp hpc)
  other j hj hpc := hlog ▸ h.other j (mt (howned j).mpr hj)
    fun t => mt (hcounting t j).mpr (hpc t)
  last := hlog ▸ h.last

theorem Exclusive.not_finished {n : Nat} (h : Exclusive p) (hown : Owning n p)
    (hlogged : LoggedOnce p) (hacc : (p.sess s).pc.accepting = some i)
    (hpc : (p.sess s).pc ≠ .markOwned i) : .fileDownloaded ∉ p.sh.log := by
  intro hmem
  have hall := hown.counted.owningAll_iff.mp (hlogged.full (List.count_pos_iff.mpr hmem))
  have hi := (List.getElem?_eq_some_iff.mp (h.requested s i hacc)).1
  exact h.not_owned hown hacc hpc (hall i hi)

theorem Entered.logged {n k : Nat} {peerId : Option Int} (h : Entered n p)
    (hx : Exclusive p) (hown : Owning n p) (hlogged : LoggedOnce p)
    (stands : (p.sess s).pc = .logPiece i k) (goes : (p'.sess s).pc = .countOwned i)
    (moves : OnlyMoves s p p')
    (own : p'.sh.own = p.sh.own)
    (log : p'.sh.log = p.sh.log ++ [.pieceDownloaded peerId i k]) : Entered n p' := by
  have hacc : (p.sess s).pc.accepting = some i := by rw [stands]; rfl
  have hmark : (p.sess s).pc ≠ .markOwned i := by rw [stands]; nofun
  have hnot := hx.not_owned hown hacc hmark
  have hfresh : (downloads p.sh.log).count i = 0 := by
    refine h.other i hnot fun t ht => ?_
    have hts := hx.alone t s i (by rw [ht]; rfl) hacc
    rw [hts, stands] at ht
    cases ht
  have hdown : downloads p'.sh.log = downloads p.sh.log ++ [i] := by
    simp [log, downloads, LogEntry.pieceId?]
  have hcount : ∀ j, j ≠ i →
      (downloads p'.sh.log).count j = (downloads p.sh.log).count j := by
    intro j hj
    rw [hdown, List.count_append, List.count_singleton, if_neg (by simpa using Ne.symm hj),
      Nat.add_zero]
  have hself : (downloads p'.sh.log).count i = 1 := by
    rw [hdown, List.count_append, hfresh, List.count_singleton_self]
  refine ⟨fun j hj => ?_, fun j hj => ?_, fun t j ht => ?_, fun j hj hpc => ?_,
    fun pre post hsplit => ?_⟩
  · rw [hdown, List.mem_append, List.mem_singleton] at hj
    rcases hj with hj | rfl
    · exact h.inRange j hj
    · rw [← hown.length]
      exact (List.getElem?_eq_some_iff.mp (hx.requested s j hacc)).1
  · rw [own] at hj
    have hji : j ≠ i := by
      rintro rfl
      exact hnot hj
    rw [hcount j hji]
    exact h.owned j hj
  · by_cases hts : t = s
    · subst t
      cases goes.symm.trans ht
      exact hself
    · rw [moves t hts] at ht
      have hji : j ≠ i := by
        rintro rfl
        exact hts (hx.alone t s j (by rw [ht]; rfl) hacc)
      rw [hcount j hji]
      exact h.counting t j ht
  · have hji : j ≠ i := by
      rintro rfl
      exact hpc s goes
    rw [own] at hj
    rw [hcount j hji]
    refine h.other j hj fun t ht => hpc t (moves.after ht ?_)
    rw [stands]
    intro hpc
    cases hpc
  · have hmem : LogEntry.fileDownloaded ∈ p'.sh.log := by
      rw [hsplit]
      exact List.mem_append_right _ List.mem_cons_self
    rw [log, List.mem_append, List.mem_singleton] at hmem
    rcases hmem with hmem | hmem
    · exact (hx.not_finished hown hlogged hacc hmark hmem).elim
    · cases hmem

theorem Entered.counted {n : Nat} (h : Entered n p) (hx : Exclusive p)
    (hown : Owning n p) (hown' : Owning n p') (hlogged : LoggedOnce p)
    (stands : (p.sess s).pc = .countOwned i) (goes : (p'.sess s).pc = .markOwned i)
    (moves : OnlyMoves s p p')
    (free : p.sh.own.setting = none) (inRange : i < p.sh.own.sv.length)
    (own : p'.sh.own = p.sh.own.countOwned s i)
    (log : p'.sh.log = p.sh.log ++ if p'.sh.own.owningAll then [.fileDownloaded] else []) :
    Entered n p' := by
  have hacc : (p.sess s).pc.accepting = some i := by rw [stands]; rfl
  have hmark : (p.sess s).pc ≠ .markOwned i := by rw [stands]; nofun
  have hdown : downloads p'.sh.log = downloads p.sh.log := by
    rw [log, downloads, List.filterMap_append]
    split <;> simp [downloads, LogEntry.pieceId?]
  have hsettled : ∀ j : Nat, p'.sh.own.settled[j]? = some .owned ↔
      j = i ∨ p.sh.own.settled[j]? = some .owned := by
    intro j
    rw [own]
    simp only [SyncPieceBitfield.settled, SyncPieceBitfield.countOwned, free]
    by_cases hji : j = i
    · subst j
      simp [inRange]
    · simp [List.getElem?_set_ne (Ne.symm hji), hji]
  have howned : ∀ j, p'.sh.own.settled[j]? = some .owned →
      (downloads p'.sh.log).count j = 1 := by
    intro j hj
    rw [hdown]
    rcases (hsettled j).mp hj with rfl | hj
    · exact h.counting s j stands
    · exact h.owned j hj
  refine ⟨hdown ▸ h.inRange, howned, fun t j ht => ?_, fun j hj hpc => ?_,
    fun pre post hsplit => ?_⟩
  · have hne : (p'.sess s).pc ≠ .countOwned j := by
      rw [goes]
      intro hpc
      cases hpc
    exact hdown ▸ h.counting t j (moves.before ht hne)
  · obtain ⟨hji, hj⟩ := not_or.mp (mt (hsettled j).mpr hj)
    rw [hdown]
    refine h.other j hj fun t ht => hpc t (moves.after ht ?_)
    rw [stands]
    intro hpc
    cases hpc
    exact hji rfl
  · have hnot := hx.not_finished hown hlogged hacc hmark
    have hall : p'.sh.own.owningAll = true := by
      by_contra hall
      rw [log, if_neg hall, List.append_nil] at hsplit
      exact hnot (hsplit ▸ List.mem_append_right _ List.mem_cons_self)
    rw [log, if_pos hall] at hsplit
    obtain rfl := eq_of_first hnot hsplit
    rw [← hdown]
    refine List.perm_iff_count.mpr fun j => ?_
    by_cases hj : j < n
    · have hj' : j < p'.sh.own.sv.length := hown'.length.symm ▸ hj
      rw [howned j (hown'.counted.owningAll_iff.mp hall j hj'),
        List.count_eq_one_of_mem List.nodup_range (List.mem_range.mpr hj)]
    · have hout : j ∉ downloads p'.sh.log := fun hmem => hj (h.inRange j (hdown ▸ hmem))
      rw [List.count_eq_zero_of_not_mem hout,
        List.count_eq_zero_of_not_mem (mt List.mem_range.mp hj)]

def Stays (p p' : Proc) (t : Sid) : Prop :=
  (p'.sess t).pc = (p.sess t).pc ∨
    (p'.sess t).pc.reports = false ∧ (p.sess t).pc.reports = false

theorem Stays.pc_iff {pc : Pc} (h : Stays p p' t) (hpc : pc.reports = true) :
    (p'.sess t).pc = pc ↔ (p.sess t).pc = pc := by
  rcases h with h | ⟨hp', hp⟩
  · rw [h]
  · refine ⟨fun heq => ?_, fun heq => ?_⟩
    · rw [heq, hpc] at hp'
      cases hp'
    · rw [heq, hpc] at hp
      cases hp

theorem stays_commit {e : Effect} (hs : e.after.pc = (p.sess s).pc ∨
    e.after.pc.reports = false ∧ (p.sess s).pc.reports = false) (t : Sid) :
    Stays p (p.commit s e) t := by
  unfold Stays
  by_cases hts : t = s
  · subst t
    rwa [commit_pc_self]
  · exact .inl (commit_pc_of_ne hts)

theorem Background.stays (hb : Background p p') (t : Sid) : Stays p p' t := by
  exact .inl (hb.pc t)

theorem not_counted_of_stays {pc pc' : Pc} (h : pc' = pc ∨ pc'.reports = false ∧
    pc.reports = false) (i : Nat) (hpc : pc = .countOwned i) : pc' ≠ .markOwned i := by
  subst pc
  rcases h with rfl | ⟨-, h⟩
  · nofun
  · cases h

theorem Entered.step {n : Nat} {a : Act} (h : Entered n p) (hx : Exclusive p)
    (hown : Owning n p) (hlogged : LoggedOnce p) (hstep : p.step a = some p') :
    Entered n p' := by
  have hown' := hown.step hstep
  obtain ⟨-, ⟨s, act, -, hen, rfl⟩ | hb⟩ := step_cases hstep
  · cases logStep_sessionEffect hen with
    | quiet log places =>
        have hkeep := uncounted (sessionEffect_own hen) (hown.locals s)
          (not_counted_of_stays places)
        exact h.kept log hkeep.2 fun t j => (stays_commit places t).pc_iff rfl
    | read i stands goes own log =>
        refine h.kept log (fun j => by rw [commit_sh, own]) fun t j => ?_
        by_cases hts : t = s
        · subst t
          rw [commit_pc_self, goes, stands]
          exact ⟨nofun, nofun⟩
        · rw [commit_pc_of_ne hts]
    | logged i k stands goes own log =>
        exact h.logged hx hown hlogged stands (commit_pc_self.trans goes)
          onlyMoves_commit own log
    | counted i stands goes free inRange own log =>
        exact h.counted hx hown hown' hlogged stands (commit_pc_self.trans goes)
          onlyMoves_commit free inRange own log
  · exact h.kept hb.log (fun j => by rw [hb.own]) fun t j => (hb.stays t).pc_iff rfl

theorem entered_init {cfg : Config} (hfile : cfg.hasFile = false) :
    Entered cfg.nPieces (init cfg) := by
  have hlog : (init cfg).sh.log = [] := if_neg (by simp [hfile])
  refine ⟨?_, fun i hi => ?_, nofun, fun i _ _ => ?_, fun pre post hsplit => ?_⟩
  · rw [hlog]
    exact nofun
  · obtain ⟨hlt, heq⟩ := List.getElem?_eq_some_iff.mp hi
    simp [init, hfile, SyncPieceBitfield.init, SyncPieceBitfield.settled] at heq
  · rw [hlog]
    rfl
  · rw [hlog] at hsplit
    simp at hsplit

theorem Stays.reports (h : Stays p p' t) :
    (p'.sess t).pc.reports = (p.sess t).pc.reports := by
  rcases h with h | ⟨hp', hp⟩
  · rw [h]
  · rw [hp', hp]

theorem Numbered.kept (h : Numbered p) (hlog : p'.sh.log = p.sh.log)
    (hcount : p'.sh.own.nOwned = p.sh.own.nOwned) (hstays : ∀ t, Stays p p' t) :
    Numbered p' where
  alone s t hs ht := h.alone s t ((hstays s).reports ▸ hs) ((hstays t).reports ▸ ht)
  logging s i n hpc := by
    rw [hcount]
    exact h.logging s i n (((hstays s).pc_iff rfl).mp hpc)
  counting s i hpc := by
    rw [hlog, hcount]
    exact h.counting s i (((hstays s).pc_iff rfl).mp hpc)
  other hpc := by
    rw [hlog, hcount]
    exact h.other fun s i => mt ((hstays s).pc_iff rfl).mpr (hpc s i)

theorem live_of_reports (hlife : Lifecycle p) (h : (p.sess t).pc.reports = true) :
    ⟨t, (p.sess t).addr⟩ ∈ p.sh.sc.ss := by
  refine hlife.live t ?_ ?_
  all_goals
    intro hpc
    rw [hpc] at h
    cases h

theorem Numbered.quiet (h : Numbered p) (hs : (p.sess s).pc.reports = true) :
    ∀ t, t ≠ s → (p.sess t).pc.reports = false := fun t hts =>
  Bool.of_not_eq_true fun ht => hts (h.alone t s ht hs)

theorem Numbered.read (h : Numbered p)
    (halone : ∀ t, t ≠ s → (p.sess t).pc.reports = false)
    (stands : (p.sess s).pc = .readCount i)
    (goes : (p'.sess s).pc = .logPiece i (p.sh.own.nOwned + 1))
    (moves : OnlyMoves s p p')
    (hown : p'.sh.own = p.sh.own) (hlog : p'.sh.log = p.sh.log) : Numbered p' := by
  have honly := moves.reports_only halone
  refine ⟨fun t u ht hu => (honly t ht).trans (honly u hu).symm, fun t j n hpc => ?_,
    fun t j hpc => ?_, fun _ => ?_⟩
  · obtain rfl := honly t (by rw [hpc]; rfl)
    cases goes.symm.trans hpc
    rw [hown]
  · obtain rfl := honly t (by rw [hpc]; rfl)
    cases goes.symm.trans hpc
  · rw [hlog, hown]
    refine h.other fun t j hpc => ?_
    by_cases hts : t = s
    · rw [hts, stands] at hpc
      cases hpc
    · have hquiet := halone t hts
      rw [hpc] at hquiet
      cases hquiet

theorem Numbered.logged {k : Nat} {peerId : Option Int} (h : Numbered p)
    (stands : (p.sess s).pc = .logPiece i k) (goes : (p'.sess s).pc = .countOwned i)
    (moves : OnlyMoves s p p')
    (hown : p'.sh.own = p.sh.own)
    (hlog : p'.sh.log = p.sh.log ++ [.pieceDownloaded peerId i k]) : Numbered p' := by
  have hs : (p.sess s).pc.reports = true := by rw [stands]; rfl
  have honly := moves.reports_only (h.quiet hs)
  have hbefore : reported p.sh.log = List.range' 1 p.sh.own.nOwned := by
    refine h.other fun t j hpc => ?_
    rw [h.alone t s (by rw [hpc]; rfl) hs, stands] at hpc
    cases hpc
  have hafter : reported p'.sh.log = List.range' 1 (p'.sh.own.nOwned + 1) := by
    have hk := h.logging s i k stands
    rw [hlog, hown, reported, List.filterMap_append, List.range'_1_concat, ← hbefore, hk,
      Nat.add_comm 1]
    rfl
  refine ⟨fun t u ht hu => (honly t ht).trans (honly u hu).symm, fun t j n hpc => ?_,
    fun t j hpc => hafter, fun hpc => (hpc s i goes).elim⟩
  obtain rfl := honly t (by rw [hpc]; rfl)
  cases goes.symm.trans hpc

theorem Numbered.counted (h : Numbered p) (hx : Exclusive p)
    (stands : (p.sess s).pc = .countOwned i) (goes : (p'.sess s).pc = .markOwned i)
    (moves : OnlyMoves s p p')
    (hown : p'.sh.own = p.sh.own.countOwned s i)
    (hlog : p'.sh.log = p.sh.log ++ if p'.sh.own.owningAll then [.fileDownloaded] else []) :
    Numbered p' := by
  have hs : (p.sess s).pc.reports = true := by rw [stands]; rfl
  have hnone : ∀ t, (p'.sess t).pc.reports = false := by
    intro t
    by_cases hts : t = s
    · rw [hts, goes]
      rfl
    · rw [moves t hts]
      exact h.quiet hs t hts
  have hreq := hx.requested s i (by rw [stands]; rfl)
  have hcount : p'.sh.own.nOwned = p.sh.own.nOwned + 1 := by
    rw [hown, SyncPieceBitfield.countOwned, hreq]
    rfl
  have hreported : reported p'.sh.log = reported p.sh.log := by
    rw [hlog, reported, List.filterMap_append]
    split <;> simp [reported, LogEntry.numOwnedPiece?]
  have hno : ∀ {t pc}, pc.reports = true → (p'.sess t).pc ≠ pc := by
    intro t pc hpc heq
    have hquiet := hnone t
    rw [heq, hpc] at hquiet
    cases hquiet
  refine ⟨fun t u ht _ => ?_, fun t j n hpc => (hno rfl hpc).elim,
    fun t j hpc => (hno rfl hpc).elim, fun _ => ?_⟩
  · rw [hnone t] at ht
    cases ht
  · rw [hreported, hcount]
    exact h.counting s i stands

theorem Numbered.step {n : Nat} {a : Act} (h : Numbered p) (hx : Exclusive p)
    (hlife : Lifecycle p) (hown : Owning n p) (hok : CountsAlone p a)
    (hstep : p.step a = some p') : Numbered p' := by
  obtain ⟨-, ⟨s, act, rfl, hen, rfl⟩ | hb⟩ := step_cases hstep
  · have hquiet : (p.sessionEffect s act).sh.log = p.sh.log →
        ((p.sessionEffect s act).after.pc = (p.sess s).pc ∨
          (p.sessionEffect s act).after.pc.reports = false ∧
            (p.sess s).pc.reports = false) →
        Numbered (p.commit s (p.sessionEffect s act)) := by
      intro log places
      have hkeep := uncounted (sessionEffect_own hen) (hown.locals s)
        (not_counted_of_stays places)
      exact h.kept log hkeep.1 (stays_commit places)
    cases act with
    | thread c =>
        cases logStep_protocol (c := c) hen with
        | quiet log places => exact hquiet log places
        | read i stands goes own log =>
            have hok := hok (by rw [stands]; rfl)
            refine h.read (fun t hts => ?_) stands (commit_pc_self.trans goes)
              onlyMoves_commit own log
            exact Bool.of_not_eq_true fun ht =>
              Bool.false_ne_true ((hok _ (live_of_reports hlife ht) hts).symm.trans ht)
        | logged i k stands goes own log =>
            exact h.logged stands (commit_pc_self.trans goes)
              onlyMoves_commit own log
        | counted i stands goes free inRange own log =>
            exact h.counted hx stands (commit_pc_self.trans goes)
              onlyMoves_commit own log
    | _ =>
        obtain ⟨log, places⟩ := log_of_not_thread hen nofun
        exact hquiet log places
  · exact h.kept hb.log (by rw [hb.own]) hb.stays

theorem Numbered.reported (h : Numbered p) :
    ∃ m, reported p.sh.log = List.range' 1 m := by
  by_cases hcounting : ∃ s i, (p.sess s).pc = .countOwned i
  · obtain ⟨s, i, hpc⟩ := hcounting
    exact ⟨_, h.counting s i hpc⟩
  · exact ⟨_, h.other fun s i hpc => hcounting ⟨s, i, hpc⟩⟩

theorem numbered_init {cfg : Config} (hfile : cfg.hasFile = false) :
    Numbered (init cfg) := by
  have hlog : (init cfg).sh.log = [] := if_neg (by simp [hfile])
  refine ⟨nofun, nofun, nofun, fun _ => ?_⟩
  rw [hlog]
  simp [reported, init, SyncPieceBitfield.init, hfile]

end Proc

end CntPeer
