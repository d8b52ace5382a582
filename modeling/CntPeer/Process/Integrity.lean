import CntPeer.Process.View

/-!
# Contents of the pieces

As long as a process is fed right pieces, every piece it keeps in the file, in
the cache or in the hands of a thread is the one at its place in the shared
file, and so is every piece it serves.
-/

namespace CntPeer

open CntPeer.Foundation

structure Shares (F : List UInt8) (cfg : Config) : Prop where
  pieceSize : 0 < cfg.pieceSize
  fileSize : cfg.fileSize = F.length
  file : cfg.hasFile = true → cfg.file = F

def Right (F : List UInt8) (size : Nat) (j : Int) (d : Piece) : Prop :=
  ∃ i : Nat, j = i ∧ i * size < F.length ∧ d = chunk F size i

def Stored (F : List UInt8) (size : Nat) (file : List UInt8) (i : Nat) : Prop :=
  readAt file (i * size) (min size (F.length - i * size)) =
    some (chunk F size i)

def PieceLocal (F : List UInt8) (size : Nat) (sh : Shared) (x : Session) :
    Prop :=
  match x.pc with
  | .getPiece i | .readPiece i => sh.own.sv[i]? = some .owned
  | .cachePiece i d | .sendPiece i d | .savePiece i d => Right F size i d
  | .saveCache i d => Right F size i d ∧ Stored F size sh.repo.file i
  | .readCount i | .logPiece i _ | .countOwned i | .markOwned i =>
      Stored F size sh.repo.file i
  | _ => True

structure Delivers (F : List UInt8) (size : Nat) (x : Session) : Prop where
  queued : ∀ j d, .msgPiece j d ∈ x.events → Right F size j d
  written : ∀ j d, .actual (.pieceMsg j d) ∈ x.sent → Right F size j d

inductive RepoStep (r : PieceRepository) (pc : Pc) (r' : PieceRepository) :
    Prop
  | same (h : r' = r)
  | cached (keep : Nat → Bool) (i : Nat) (d : Piece)
      (stands : pc = .cachePiece i d ∨ pc = .saveCache i d)
      (h : r' = r.emplace keep i d)
  | written (i : Nat) (d : Piece) (stands : pc = .savePiece i d)
      (h : r.write i d = .ok r')

/-- The file and the cache hold right pieces, and the owned ones are there. -/
structure Keeps (F : List UInt8) (cfg : Config) (sh : Shared) : Prop where
  size : sh.repo.size = F.length
  pieceSize : sh.repo.pieceSize = cfg.pieceSize
  writable : sh.repo.writable = !cfg.hasFile
  short : sh.repo.file.length ≤ F.length
  cache : ∀ e ∈ sh.repo.cache, e.2 = chunk F cfg.pieceSize e.1
  owned : ∀ i : Nat, sh.own.sv[i]? = some .owned →
    Stored F cfg.pieceSize sh.repo.file i

structure Intact (F : List UInt8) (cfg : Config) (p : Proc) : Prop where
  keeps : Keeps F cfg p.sh
  locals : ∀ s, PieceLocal F cfg.pieceSize p.sh (p.sess s)
  delivers : ∀ s, Delivers F cfg.pieceSize (p.sess s)

def FedRight (F : List UInt8) (size : Nat) : Proc → Act → Prop :=
  fun _ a => ∀ t j d, .actual (.pieceMsg j d) ∈ a.inputAt t → Right F size j d

variable {F : List UInt8} {cfg : Config}

theorem Shares.begins (h : Shares F cfg) {i : Nat} (hi : i < cfg.nPieces) :
    i * cfg.pieceSize < F.length := by
  rw [← h.fileSize]
  exact lt_of_lt_ceilingDiv h.pieceSize hi

theorem Shares.nPieces_le (h : Shares F cfg) : cfg.nPieces ≤ F.length := by
  by_contra hlt
  have hbegin := h.begins (Nat.lt_of_not_le hlt)
  have hle := Nat.le_mul_of_pos_right F.length h.pieceSize
  omega

theorem Keeps.expectedSize {sh : Shared} (h : Keeps F cfg sh) (i : Nat) :
    sh.repo.expectedSize i =
      min cfg.pieceSize (F.length - i * cfg.pieceSize) := by
  rw [PieceRepository.expectedSize, h.size, h.pieceSize]

theorem Stored.write {size : Nat} {file : List UInt8} {i j : Nat} {d : Piece}
    (h : Stored F size file j) (hsize : 0 < size) (hd : Right F size i d) :
    Stored F size (writeAt 0 file (i * size) d) j := by
  obtain ⟨i', hii, hlt, rfl⟩ := hd
  cases Int.natCast_inj.mp hii
  by_cases hij : i = j
  · subst j
    rw [Stored, ← length_chunk]
    exact readAt_writeAt_same (chunk_ne_nil hsize hlt)
  · refine readAt_writeAt_disjoint h ?_
    rw [length_chunk]
    exact chunk_disjoint (Ne.symm hij) (by omega) (by omega)

theorem stored_write {size : Nat} {file : List UInt8} {i : Nat} {d : Piece}
    (hsize : 0 < size) (hd : Right F size i d) :
    Stored F size (writeAt 0 file (i * size) d) i := by
  obtain ⟨i', hii, hlt, rfl⟩ := hd
  cases Int.natCast_inj.mp hii
  rw [Stored, ← length_chunk]
  exact readAt_writeAt_same (chunk_ne_nil hsize hlt)

theorem write_eq_ok {r r' : PieceRepository} {i : Nat} {d : Piece}
    (h : r.write i d = .ok r') :
    r.writable = true ∧
      r' = { r with file := writeAt 0 r.file (i * r.pieceSize) d } := by
  unfold PieceRepository.write at h
  split at h
  · cases h
  · split at h
    · cases h
      exact ⟨‹_›, rfl⟩
    · cases h

theorem RepoStep.stored {sh : Shared} {x : Session} {r' : PieceRepository}
    {i : Nat} (h : RepoStep sh.repo x.pc r') (hshare : Shares F cfg)
    (hk : Keeps F cfg sh) (hl : PieceLocal F cfg.pieceSize sh x)
    (hi : Stored F cfg.pieceSize sh.repo.file i) :
    Stored F cfg.pieceSize r'.file i := by
  cases h with
  | same h => rwa [h]
  | cached keep j d stands h =>
      subst h
      exact hi
  | written j d stands h =>
      obtain ⟨-, rfl⟩ := write_eq_ok h
      simp only [PieceLocal, stands] at hl
      simp only [hk.pieceSize]
      exact hi.write hshare.pieceSize hl

theorem RepoStep.keeps {sh sh' : Shared} {s : Sid} {x : Session} {pc' : Pc}
    (h : RepoStep sh.repo x.pc sh'.repo) (hown : OwnStep sh.own s x.pc sh'.own pc')
    (hshare : Shares F cfg) (hk : Keeps F cfg sh)
    (hl : PieceLocal F cfg.pieceSize sh x) : Keeps F cfg sh' := by
  have howned : ∀ i : Nat, sh'.own.sv[i]? = some .owned →
      Stored F cfg.pieceSize sh.repo.file i := by
    intro i hi
    cases hown with
    | same stays heq => exact hk.owned i (heq ▸ hi)
    | requested j stands free heq =>
        rw [heq, SyncPieceBitfield.setRequested, List.getElem?_set] at hi
        split at hi
        · split at hi <;> cases hi
        · exact hk.owned i hi
    | counted j stands goes free hj heq =>
        rw [heq] at hi
        exact hk.owned i hi
    | marked j stands heq =>
        by_cases hij : j = i
        · subst j
          simpa only [PieceLocal, stands] using hl
        · rw [heq, SyncPieceBitfield.markOwned, List.getElem?_set_ne hij] at hi
          exact hk.owned i hi
  have hstored : ∀ i : Nat, sh'.own.sv[i]? = some .owned →
      Stored F cfg.pieceSize sh'.repo.file i := fun i hi =>
    h.stored hshare hk hl (howned i hi)
  cases h with
  | same h =>
      refine ⟨?_, ?_, ?_, ?_, ?_, hstored⟩
      all_goals rw [h]
      · exact hk.size
      · exact hk.pieceSize
      · exact hk.writable
      · exact hk.short
      · exact hk.cache
  | cached keep i d stands h =>
      refine ⟨?_, ?_, ?_, ?_, ?_, hstored⟩
      all_goals rw [h]
      · exact hk.size
      · exact hk.pieceSize
      · exact hk.writable
      · exact hk.short
      · intro e he
        rcases PieceRepository.mem_cache_emplace he with rfl | he
        · have hd : Right F cfg.pieceSize i d := by
            rcases stands with hpc | hpc
            · simpa only [PieceLocal, hpc] using hl
            · simp only [PieceLocal, hpc] at hl
              exact hl.1
          obtain ⟨i', hii, -, rfl⟩ := hd
          rw [Int.natCast_inj.mp hii]
        · exact hk.cache e he
  | written i d stands h =>
      obtain ⟨-, heq⟩ := write_eq_ok h
      refine ⟨?_, ?_, ?_, ?_, ?_, hstored⟩
      all_goals rw [heq]
      · exact hk.size
      · exact hk.pieceSize
      · exact hk.writable
      · simp only [PieceLocal, stands] at hl
        obtain ⟨i', hii, hlt, rfl⟩ := hl
        cases Int.natCast_inj.mp hii
        have hshort := hk.short
        rw [length_writeAt (chunk_ne_nil hshare.pieceSize hlt), length_chunk,
          hk.pieceSize]
        omega
      · exact hk.cache

theorem PieceLocal.mono {sh sh' : Shared} {x : Session}
    (h : PieceLocal F cfg.pieceSize sh x)
    (hadv : Advances sh.own.sv sh'.own.sv)
    (hstored : ∀ i, Stored F cfg.pieceSize sh.repo.file i →
      Stored F cfg.pieceSize sh'.repo.file i) :
    PieceLocal F cfg.pieceSize sh' x := by
  unfold PieceLocal at h ⊢
  split at h
  · exact hadv.owned _ h
  · exact hadv.owned _ h
  · exact h
  · exact h
  · exact h
  · exact ⟨h.1, hstored _ h.2⟩
  · exact hstored _ h
  · exact hstored _ h
  · exact hstored _ h
  · exact hstored _ h
  · trivial

namespace Proc

variable {p p' : Proc} {s t : Sid}

theorem repoStep_protocol {c : Choice} :
    RepoStep p.sh.repo (p.sess s).pc (protocol p s c).sh.repo := by
  cases hpc : (p.sess s).pc with
  | cachePiece i d =>
      simp only [protocol, hpc]
      exact .cached c.keep i d (.inl rfl) rfl
  | saveCache i d =>
      simp only [protocol, hpc]
      exact .cached c.keep i d (.inr rfl) rfl
  | savePiece i d =>
      simp only [protocol, hpc]
      split
      · exact .same rfl
      · exact .written i d rfl ‹_›
  | handle e =>
      obtain ⟨halt, hsh⟩ := (handles p.sh (p.sess s) e).sh
      simp only [protocol, hpc]
      exact .same (by rw [hsh])
  | bcastNext i rest =>
      obtain ⟨m, pc, -, hstep⟩ := protocol_bcastNext (c := c) hpc
      rw [hstep]
      exact .same rfl
  | _ =>
      simp only [protocol, hpc, withDifference, withCollection, drainStep,
        awaitStep]
      repeat' split
      all_goals exact .same rfl

theorem repoStep_sessionEffect {a : SessionAct} :
    RepoStep p.sh.repo (p.sess s).pc (p.sessionEffect s a).sh.repo := by
  cases a with
  | thread c => exact repoStep_protocol
  | _ =>
      simp only [sessionEffect]
      repeat' split
      all_goals exact .same rfl

theorem right_of_owned {n : Nat} {i : Nat} (hshare : Shares F cfg)
    (hn : n = cfg.nPieces) (hown : Owning n p)
    (hi : p.sh.own.sv[i]? = some .owned) :
    Right F cfg.pieceSize i (chunk F cfg.pieceSize i) := by
  refine ⟨i, rfl, hshare.begins ?_, rfl⟩
  rw [← hn, ← hown.length]
  exact (List.getElem?_eq_some_iff.mp hi).1

theorem pieceLocal_handle {sh : Shared} {x : Session} {e : Event} {size : Nat}
    (hpc : x.pc = .handle e) (hq : Delivers F size x) :
    PieceLocal F size (handle sh x e).sh (handle sh x e).after := by
  cases e with
  | msgRequest j =>
      simp only [handle]
      repeat' split
      · rename_i _ hown
        simpa [PieceLocal, Effect.after, Session.goto,
          SyncPieceBitfield.isOwned] using hown
      all_goals simp [PieceLocal, Effect.after, panicEffect, hpc]
  | msgPiece j d =>
      have hd := hq.queued j d (by simp [Session.events, hpc])
      simp only [handle]
      repeat' split
      · obtain ⟨i, rfl, hi⟩ := hd
        simpa [PieceLocal, Effect.after, Session.goto] using ⟨i, rfl, hi⟩
      all_goals simp [PieceLocal, Effect.after, panicEffect, hpc]
  | _ =>
      simp only [handle]
      repeat' split
      all_goals simp [PieceLocal, Effect.after, panicEffect, Session.goto,
        Session.took, hpc]

theorem pieceLocal_protocol {c : Choice} (hshare : Shares F cfg)
    (hown : Owning cfg.nPieces p) (hk : Keeps F cfg p.sh)
    (hl : PieceLocal F cfg.pieceSize p.sh (p.sess s))
    (hq : Delivers F cfg.pieceSize (p.sess s)) :
    PieceLocal F cfg.pieceSize (protocol p s c).sh (protocol p s c).after := by
  cases hpc : (p.sess s).pc with
  | handle e =>
      simp only [protocol, hpc]
      exact pieceLocal_handle hpc hq
  | getPiece i =>
      simp only [PieceLocal, hpc] at hl
      have hright := right_of_owned hshare rfl hown hl
      simp only [protocol, hpc]
      split
      · rename_i d hfind
        have hd := hk.cache _ (PieceRepository.mem_cache_of_find hfind)
        simp only at hd
        subst hd
        exact hright
      · exact hl
  | readPiece i =>
      simp only [PieceLocal, hpc] at hl
      have hright := right_of_owned hshare rfl hown hl
      simp only [protocol, hpc]
      split
      · rename_i d hread
        rw [PieceRepository.read, hk.expectedSize, hk.pieceSize,
          hk.owned i hl] at hread
        cases hread
        exact hright
      · simpa [PieceLocal, Effect.after, panicEffect, hpc] using hl
  | cachePiece i d =>
      simp only [PieceLocal, hpc] at hl
      simp only [protocol, hpc]
      exact hl
  | savePiece i d =>
      simp only [PieceLocal, hpc] at hl
      simp only [protocol, hpc]
      split
      · simpa [PieceLocal, Effect.after, panicEffect, hpc] using hl
      · rename_i r hwrite
        obtain ⟨-, rfl⟩ := write_eq_ok hwrite
        refine ⟨hl, ?_⟩
        rw [hk.pieceSize]
        exact stored_write hshare.pieceSize hl
  | saveCache i d =>
      simp only [PieceLocal, hpc] at hl
      simp only [protocol, hpc]
      exact hl.2
  | readCount i | logPiece i n =>
      simp only [PieceLocal, hpc] at hl
      simp only [protocol, hpc]
      exact hl
  | countOwned i =>
      simp only [PieceLocal, hpc] at hl
      simp only [protocol, hpc]
      split
      · exact hl
      · simpa [PieceLocal, Effect.after, panicEffect, hpc] using hl
  | bcastNext i rest =>
      obtain ⟨m, pc, hturn, hstep⟩ := protocol_bcastNext (c := c) hpc
      rw [hstep]
      cases hturn
      all_goals simp only [PieceLocal, Effect.after, Session.goto]
  | _ =>
      simp only [protocol, hpc, withDifference, withCollection, drainStep,
        awaitStep, discard]
      repeat' split
      all_goals simp [PieceLocal, Effect.after, panicEffect, Session.goto, hpc]

theorem delivers_protocol {c : Choice} {size : Nat}
    (hl : PieceLocal F size p.sh (p.sess s)) (h : Delivers F size (p.sess s)) :
    Delivers F size (protocol p s c).after := by
  refine ⟨fun j d hmem => ?_, fun j d hmem => ?_⟩
  · cases queueStep_protocol (p := p) (s := s) (c := c) with
    | same events => exact h.queued j d (events ▸ hmem)
    | consumed e events =>
        refine h.queued j d ?_
        rw [events]
        exact List.mem_cons_of_mem _ hmem
  · rw [sent_protocol, List.mem_append] at hmem
    rcases hmem with hmem | hmem
    · exact h.written j d hmem
    · obtain ⟨i, rfl, hpc⟩ := mayWrite_protocol _ hmem
      simpa only [PieceLocal, hpc] using hl

theorem pieceLocal_sessionEffect {a : SessionAct} (hshare : Shares F cfg)
    (hen : p.sessionEnabled s a = true) (hown : Owning cfg.nPieces p)
    (hk : Keeps F cfg p.sh) (hl : PieceLocal F cfg.pieceSize p.sh (p.sess s))
    (hq : Delivers F cfg.pieceSize (p.sess s)) :
    PieceLocal F cfg.pieceSize (p.sessionEffect s a).sh
      (p.sessionEffect s a).after := by
  cases a with
  | thread c => exact pieceLocal_protocol hshare hown hk hl hq
  | scan m =>
      simp only [sessionEffect]
      split
      all_goals exact hl
  | readFails _ | received _ => exact hl
  | _ =>
      simp only [sessionEnabled, Bool.and_eq_true, decide_eq_true_eq] at hen
      simp only [sessionEffect]
      repeat' split
      all_goals simp [PieceLocal, Effect.after, panicEffect, Session.goto,
        Session.took, hen]

theorem delivers_sessionEffect {a : SessionAct} {size : Nat}
    (hen : p.sessionEnabled s a = true)
    (hl : PieceLocal F size p.sh (p.sess s)) (h : Delivers F size (p.sess s)) :
    Delivers F size (p.sessionEffect s a).after := by
  have hact := actCases hen
  generalize p.sessionEffect s a = e at hact
  cases hact with
  | thread c => exact delivers_protocol hl h
  | setup stands goes quiet keeps =>
      refine ⟨fun j d hmem => h.queued j d ?_, fun j d hmem => ?_⟩
      · rwa [quiet.2, keeps.eq, ← quiet.1] at hmem
      · rw [keeps.sent] at hmem
        exact h.written j d hmem
  | idle after =>
      obtain ⟨n, heq⟩ := after
      rw [heq]
      exact ⟨h.queued, h.written⟩

theorem posts_right {a : SessionAct} {size : Nat} {j : Int} {d : Piece}
    (hen : p.sessionEnabled s a = true)
    (hfed : FedRight F size p (.session s a))
    (hmem : (t, .msgPiece j d) ∈ (p.sessionEffect s a).posts) :
    Right F size j d := by
  have hact := actCases hen
  generalize p.sessionEffect s a = e at hact hmem
  cases hact with
  | thread c =>
      rcases mayPost_protocol _ hmem with ht | ⟨i, rest, hi, -⟩
      · cases ht
      · cases hi
  | setup stands goes quiet keeps taken out posts =>
      rw [posts] at hmem
      cases hmem
  | idle after out posts =>
      obtain ⟨rfl, m, rfl, hm⟩ := posts t _ hmem
      refine hfed t j d ?_
      cases Option.some.inj (msg?_of_scanned hm)
      simp [Act.inputAt, SessionAct.input]

theorem intact_step {a : Act} (hshare : Shares F cfg) (h : Intact F cfg p)
    (hown : Owning cfg.nPieces p) (hfed : FedRight F cfg.pieceSize p a)
    (hstep : p.step a = some p') : Intact F cfg p' := by
  obtain ⟨-, ⟨s, act, rfl, hen, rfl⟩ | hb⟩ := step_cases hstep
  · have hls := h.locals s
    have hos := sessionEffect_own hen
    have hrepo := repoStep_sessionEffect (p := p) (s := s) (a := act)
    have hstored : ∀ i, Stored F cfg.pieceSize p.sh.repo.file i →
        Stored F cfg.pieceSize (p.sessionEffect s act).sh.repo.file i :=
      fun i hi => hrepo.stored hshare h.keeps hls hi
    refine ⟨hrepo.keeps hos hshare h.keeps hls, fun t => ?_, fun t => ?_⟩
    · by_cases hts : t = s
      · subst t
        rw [commit_self]
        exact pieceLocal_sessionEffect hshare hen hown h.keeps hls
          (h.delivers s)
      · rw [commit_of_ne hts]
        exact (h.locals t).mono (hos.advances (hown.locals s)) hstored
    · have hmoved : Delivers F cfg.pieceSize
          (p.moved s (p.sessionEffect s act) t) := by
        by_cases hts : t = s
        · subst t
          rw [moved_self]
          exact delivers_sessionEffect hen hls (h.delivers s)
        · rw [moved_of_ne hts]
          exact h.delivers t
      rw [commit_sess]
      refine ⟨fun j d hmem => ?_, hmoved.written⟩
      rw [Session.enqAll_events, List.mem_append] at hmem
      rcases hmem with hmem | hmem
      · exact hmoved.queued j d hmem
      · exact posts_right hen hfed (mem_postsTo.mp hmem)
  · have hkeeps : Keeps F cfg p'.sh := by
      obtain ⟨h1, h2, h3, h4, h5, h6⟩ := h.keeps
      rw [← hb.repo] at h1 h2 h3 h4 h5 h6
      rw [← hb.own] at h6
      exact ⟨h1, h2, h3, h4, h5, h6⟩
    refine ⟨hkeeps, fun t => ?_, fun t => ?_⟩
    · obtain ⟨es, -, heq⟩ := hb.sess t
      rw [heq]
      refine (h.locals t).mono ?_ ?_
      · rw [hb.own]
        exact .refl _
      · rw [hb.repo]
        exact fun _ hi => hi
    · obtain ⟨es, hes, heq⟩ := hb.sess t
      rw [heq]
      refine ⟨fun j d hmem => ?_, (h.delivers t).written⟩
      rw [Session.enqAll_events, List.mem_append] at hmem
      rcases hmem with hmem | hmem
      · exact (h.delivers t).queued j d hmem
      · cases hes _ hmem

theorem intact_init (hshare : Shares F cfg) : Intact F cfg (init cfg) := by
  refine ⟨⟨?_, rfl, rfl, ?_, nofun, ?_⟩, fun _ => trivial, fun _ => ⟨nofun, nofun⟩⟩
  · cases hfile : cfg.hasFile with
    | false => simp [init, hfile, hshare.fileSize]
    | true => simp [init, hfile, hshare.file hfile]
  · cases hfile : cfg.hasFile with
    | false => simp [init, hfile]
    | true => simp [init, hfile, hshare.file hfile]
  · intro i hi
    cases hfile : cfg.hasFile with
    | false =>
        simp [init, hfile, SyncPieceBitfield.init, List.getElem?_replicate] at hi
    | true =>
        simp only [init, hfile, if_true, hshare.file hfile]
        have hlt := (List.getElem?_eq_some_iff.mp hi).1
        simp only [init, SyncPieceBitfield.init, List.length_replicate] at hlt
        exact readAt_chunk (hshare.begins hlt).le

theorem intact_reaches (hshare : Shares F cfg)
    (h : Reaches step (FedRight F cfg.pieceSize) (init cfg) p) :
    Intact F cfg p :=
  h.invariant (intact_init hshare) fun _ _ _ hr ih hfed hstep =>
    intact_step hshare ih (owning_reachable hr.reachable) hfed hstep

end Proc

end CntPeer
