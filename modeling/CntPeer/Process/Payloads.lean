import CntPeer.Process.Integrity
import CntPeer.Process.Tokens

/-!
# Where the bytes come from

Whatever the peers send, a process keeps and serves pieces as it got them: each
piece on the disk is the payload of one message, and no two are ever mixed.
-/

namespace CntPeer

open CntPeer.Foundation

/-- The bytes `d` are piece `i` of the file that the process began with, or of a
message that it has taken up. -/
inductive Sourced (cfg : Config) (p : Proc) (i : Nat) (d : Piece) : Prop
  | seeded (hasFile : cfg.hasFile = true) (inRange : i < cfg.nPieces)
      (cut : d = chunk cfg.file cfg.pieceSize i)
  | received (s : Sid) (taken : .actual (.pieceMsg i d) ∈ (p.sess s).handled)

def OnDisk (src : Nat → Piece → Prop) (r : PieceRepository) (i : Nat) : Prop :=
  ∃ d, r.read i = some d ∧ src i d

def PayloadLocal (src : Nat → Piece → Prop) (sh : Shared) (x : Session) : Prop :=
  match x.pc with
  | .getPiece i | .readPiece i => sh.own.sv[i]? = some .owned
  | .cachePiece i d | .sendPiece i d | .savePiece i d => src i d
  | .saveCache i d => src i d ∧ OnDisk src sh.repo i
  | .readCount i | .logPiece i _ | .countOwned i | .markOwned i =>
      OnDisk src sh.repo i
  | _ => True

structure Stocked (src : Nat → Piece → Prop) (cfg : Config) (sh : Shared) :
    Prop where
  size : sh.repo.size = if cfg.hasFile then cfg.file.length else cfg.fileSize
  pieceSize : sh.repo.pieceSize = cfg.pieceSize
  writable : sh.repo.writable = !cfg.hasFile
  file : cfg.hasFile = true → sh.repo.file = cfg.file
  cache : ∀ e ∈ sh.repo.cache, src e.1 e.2
  owned : cfg.hasFile = false → ∀ i : Nat, sh.own.sv[i]? = some .owned →
    OnDisk src sh.repo i

structure Traced (cfg : Config) (p : Proc) : Prop where
  stocked : Stocked (Sourced cfg p) cfg p.sh
  locals : ∀ s, PayloadLocal (Sourced cfg p) p.sh (p.sess s)
  written : ∀ s (j : Int) d, .actual (.pieceMsg j d) ∈ (p.sess s).sent →
    ∃ i : Nat, j = i ∧ Sourced cfg p i d

variable {cfg : Config} {src src' : Nat → Piece → Prop} {r r' : PieceRepository}
  {i : Nat} {d : Piece}

theorem OnDisk.mono (h : OnDisk src r i) (hsrc : ∀ i d, src i d → src' i d) :
    OnDisk src' r i :=
  let ⟨d, hread, hd⟩ := h
  ⟨d, hread, hsrc i d hd⟩

theorem chunk_of_readAt {f b : List UInt8} {size : Nat}
    (h : readAt f (i * size) (min size (f.length - i * size)) = some b) :
    b = chunk f size i := by
  unfold readAt at h
  split at h
  · cases h
    apply List.ext_getElem?
    intro k
    simp only [chunk, List.getElem?_take, List.getElem?_drop]
    split
    · rw [if_pos (by omega)]
    · split
      · rw [List.getElem?_eq_none (by omega)]
      · rfl
  · contradiction

theorem OnDisk.write {j : Nat} (h : j ≠ i → OnDisk src r j) (hd : src i d)
    (hbegin : i * r.pieceSize < r.size) (hsize : 0 < r.pieceSize)
    (hwrite : r.write i d = .ok r') : OnDisk src r' j := by
  have hlen := PieceRepository.length_of_write hwrite
  obtain ⟨-, rfl⟩ := write_eq_ok hwrite
  by_cases hji : j = i
  · subst j
    have hne : d ≠ [] := by
      apply List.ne_nil_of_length_pos
      rw [hlen, PieceRepository.expectedSize]
      omega
    refine ⟨d, ?_, hd⟩
    have hread : readAt (writeAt 0 r.file (i * r.pieceSize) d)
        (i * r.pieceSize) d.length = some d := readAt_writeAt_same hne
    rwa [hlen] at hread
  · obtain ⟨d', hread, hd'⟩ := h hji
    refine ⟨d', readAt_writeAt_disjoint hread ?_, hd'⟩
    rw [hlen]
    exact chunk_disjoint hji (Nat.min_le_left _ _) (Nat.min_le_left _ _)

theorem Stocked.begins {sh : Shared} (h : Stocked src cfg sh)
    (hi : i < cfg.nPieces) (hwrite : sh.repo.write i d = .ok r') :
    0 < sh.repo.pieceSize ∧ i * sh.repo.pieceSize < sh.repo.size := by
  have hfile : cfg.hasFile = false := by
    have hw := (write_eq_ok hwrite).1
    rw [h.writable] at hw
    simpa using hw
  have hpos : 0 < cfg.pieceSize := by
    rcases Nat.eq_zero_or_pos cfg.pieceSize with hzero | hpos
    · rw [Config.nPieces, ceilingDiv, hzero, Nat.div_zero] at hi
      omega
    · exact hpos
  rw [h.pieceSize, h.size, hfile]
  exact ⟨hpos, lt_of_lt_ceilingDiv hpos hi⟩

theorem RepoStep.onDisk {sh : Shared} {x : Session} {j : Nat}
    (h : RepoStep sh.repo x.pc r') (hs : Stocked src cfg sh)
    (hrange : ∀ i d, x.pc = .savePiece i d → i < cfg.nPieces)
    (hl : PayloadLocal src sh x) (hj : OnDisk src sh.repo j) :
    OnDisk src r' j := by
  cases h with
  | same h => rwa [h]
  | cached keep i d stands h =>
      subst h
      exact hj
  | written i d stands h =>
      simp only [PayloadLocal, stands] at hl
      have hin := hs.begins (hrange i d stands) h
      exact OnDisk.write (fun _ => hj) hl hin.2 hin.1 h

theorem RepoStep.stocked {sh sh' : Shared} {s : Sid} {x : Session} {pc' : Pc}
    (h : RepoStep sh.repo x.pc sh'.repo) (hown : OwnStep sh.own s x.pc sh'.own pc')
    (hs : Stocked src cfg sh)
    (hrange : ∀ i d, x.pc = .savePiece i d → i < cfg.nPieces)
    (hl : PayloadLocal src sh x) : Stocked src cfg sh' := by
  have howned : cfg.hasFile = false → ∀ i : Nat,
      sh'.own.sv[i]? = some .owned → OnDisk src sh'.repo i := by
    intro hfile i hi
    refine h.onDisk hs hrange hl ?_
    cases hown with
    | same stays heq => exact hs.owned hfile i (heq ▸ hi)
    | requested j stands free heq =>
        rw [heq, SyncPieceBitfield.setRequested, List.getElem?_set] at hi
        split at hi
        · split at hi <;> cases hi
        · exact hs.owned hfile i hi
    | counted j stands goes free hj heq =>
        rw [heq] at hi
        exact hs.owned hfile i hi
    | marked j stands heq =>
        by_cases hij : j = i
        · subst j
          simpa only [PayloadLocal, stands] using hl
        · rw [heq, SyncPieceBitfield.markOwned, List.getElem?_set_ne hij] at hi
          exact hs.owned hfile i hi
  cases h with
  | same h =>
      refine ⟨?_, ?_, ?_, ?_, ?_, howned⟩
      all_goals rw [h]
      · exact hs.size
      · exact hs.pieceSize
      · exact hs.writable
      · exact hs.file
      · exact hs.cache
  | cached keep i d stands h =>
      refine ⟨?_, ?_, ?_, ?_, ?_, howned⟩
      all_goals rw [h]
      · exact hs.size
      · exact hs.pieceSize
      · exact hs.writable
      · exact hs.file
      · intro e he
        rcases PieceRepository.mem_cache_emplace he with rfl | he
        · rcases stands with hpc | hpc
          all_goals simp only [PayloadLocal, hpc] at hl
          · exact hl
          · exact hl.1
        · exact hs.cache e he
  | written i d stands h =>
      obtain ⟨hw, heq⟩ := write_eq_ok h
      refine ⟨?_, ?_, ?_, ?_, ?_, howned⟩
      all_goals rw [heq]
      · exact hs.size
      · exact hs.pieceSize
      · exact hs.writable
      · intro hfile
        rw [hs.writable, hfile] at hw
        cases hw
      · exact hs.cache

theorem Stocked.mono {sh : Shared} (h : Stocked src cfg sh)
    (hsrc : ∀ i d, src i d → src' i d) : Stocked src' cfg sh where
  size := h.size
  pieceSize := h.pieceSize
  writable := h.writable
  file := h.file
  cache e he := hsrc _ _ (h.cache e he)
  owned hfile i hi := (h.owned hfile i hi).mono hsrc

theorem PayloadLocal.mono {sh sh' : Shared} {x : Session}
    (h : PayloadLocal src sh x) (hadv : Advances sh.own.sv sh'.own.sv)
    (hdisk : ∀ i, OnDisk src sh.repo i → OnDisk src sh'.repo i)
    (hsrc : ∀ i d, src i d → src' i d) : PayloadLocal src' sh' x := by
  unfold PayloadLocal at h ⊢
  split at h
  · exact hadv.owned _ h
  · exact hadv.owned _ h
  · exact hsrc _ _ h
  · exact hsrc _ _ h
  · exact hsrc _ _ h
  · exact ⟨hsrc _ _ h.1, (hdisk _ h.2).mono hsrc⟩
  · exact (hdisk _ h).mono hsrc
  · exact (hdisk _ h).mono hsrc
  · exact (hdisk _ h).mono hsrc
  · exact (hdisk _ h).mono hsrc
  · trivial

theorem payloadLocal_handle {sh : Shared} {x : Session} {e : Event}
    (hpc : x.pc = .handle e)
    (hnew : ∀ (i : Nat) d, .actual (.pieceMsg i d) ∈ (handle sh x e).after.handled →
      src i d) : PayloadLocal src (handle sh x e).sh (handle sh x e).after := by
  cases e with
  | msgRequest j =>
      simp only [handle]
      repeat' split
      · rename_i _ hown
        simpa [PayloadLocal, Effect.after, Session.goto,
          SyncPieceBitfield.isOwned] using hown
      all_goals simp [PayloadLocal, Effect.after, panicEffect, hpc]
  | msgPiece j d =>
      simp only [handle] at hnew ⊢
      split
      · rename_i hrange
        obtain ⟨i, rfl, -⟩ := checkRange_iff.mp hrange
        rw [if_pos hrange] at hnew
        split
        · rename_i hreq
          rw [if_pos hreq] at hnew
          exact hnew i d (by simp [Effect.after, Session.goto, Session.took])
        · simp [PayloadLocal, Effect.after, panicEffect, hpc]
      · simp [PayloadLocal, Effect.after, panicEffect, hpc]
  | _ =>
      simp only [handle]
      repeat' split
      all_goals simp [PayloadLocal, Effect.after, panicEffect, Session.goto,
        Session.took, hpc]

namespace Proc

variable {p p' : Proc} {s t : Sid}

theorem read_sourced (h : Stocked (Sourced cfg p) cfg p.sh)
    (hown : Owning cfg.nPieces p) (hi : p.sh.own.sv[i]? = some .owned)
    (hread : p.sh.repo.read i = some d) : Sourced cfg p i d := by
  cases hfile : cfg.hasFile with
  | false =>
      obtain ⟨d', hread', hd'⟩ := h.owned hfile i hi
      rw [hread] at hread'
      cases hread'
      exact hd'
  | true =>
      have hlt := (List.getElem?_eq_some_iff.mp hi).1
      rw [hown.length] at hlt
      refine .seeded hfile hlt (chunk_of_readAt ?_)
      rw [PieceRepository.read, PieceRepository.expectedSize, h.pieceSize, h.size,
        h.file hfile, hfile] at hread
      exact hread

theorem payloadLocal_protocol {c : Choice} (hs : Stocked (Sourced cfg p) cfg p.sh)
    (hown : Owning cfg.nPieces p)
    (hl : PayloadLocal (Sourced cfg p) p.sh (p.sess s))
    (hrange : ∀ i d, (p.sess s).pc = .savePiece i d → i < cfg.nPieces)
    (hsrc : ∀ i d, Sourced cfg p i d → src i d)
    (hnew : ∀ (i : Nat) d, .actual (.pieceMsg i d) ∈ (protocol p s c).after.handled →
      src i d) :
    PayloadLocal src (protocol p s c).sh (protocol p s c).after := by
  cases hpc : (p.sess s).pc with
  | handle e =>
      simp only [protocol, hpc] at hnew ⊢
      exact payloadLocal_handle hpc hnew
  | getPiece i =>
      simp only [PayloadLocal, hpc] at hl
      simp only [protocol, hpc]
      split
      · rename_i d hfind
        exact hsrc i d (hs.cache _ (PieceRepository.mem_cache_of_find hfind))
      · exact hl
  | readPiece i =>
      simp only [PayloadLocal, hpc] at hl
      simp only [protocol, hpc]
      split
      · rename_i d hread
        exact hsrc i d (read_sourced hs hown hl hread)
      · simpa [PayloadLocal, Effect.after, panicEffect, hpc] using hl
  | cachePiece i d =>
      simp only [PayloadLocal, hpc] at hl
      simp only [protocol, hpc]
      exact hsrc i d hl
  | savePiece i d =>
      simp only [PayloadLocal, hpc] at hl
      simp only [protocol, hpc]
      split
      · simpa [PayloadLocal, Effect.after, panicEffect, hpc] using hsrc i d hl
      · rename_i r hwrite
        have hin := hs.begins (hrange i d hpc) hwrite
        refine ⟨hsrc i d hl, ?_⟩
        exact (OnDisk.write (fun h => absurd rfl h) hl hin.2 hin.1 hwrite).mono hsrc
  | saveCache i d =>
      simp only [PayloadLocal, hpc] at hl
      simp only [protocol, hpc]
      exact hl.2.mono hsrc
  | readCount i | logPiece i n =>
      simp only [PayloadLocal, hpc] at hl
      simp only [protocol, hpc]
      exact hl.mono hsrc
  | countOwned i =>
      simp only [PayloadLocal, hpc] at hl
      simp only [protocol, hpc]
      split
      · exact hl.mono hsrc
      · simpa [PayloadLocal, Effect.after, panicEffect, hpc] using hl.mono hsrc
  | bcastNext i rest =>
      obtain ⟨m, pc, hturn, hstep⟩ := protocol_bcastNext (c := c) hpc
      rw [hstep]
      cases hturn
      all_goals simp only [PayloadLocal, Effect.after, Session.goto]
  | _ =>
      simp only [protocol, hpc, withDifference, withCollection, drainStep,
        awaitStep, discard]
      repeat' split
      all_goals simp [PayloadLocal, Effect.after, panicEffect, Session.goto, hpc]

theorem payloadLocal_sessionEffect {a : SessionAct}
    (hen : p.sessionEnabled s a = true) (hs : Stocked (Sourced cfg p) cfg p.sh)
    (hown : Owning cfg.nPieces p)
    (hl : PayloadLocal (Sourced cfg p) p.sh (p.sess s))
    (hrange : ∀ i d, (p.sess s).pc = .savePiece i d → i < cfg.nPieces)
    (hsrc : ∀ i d, Sourced cfg p i d → src i d)
    (hnew : ∀ (i : Nat) d,
      .actual (.pieceMsg i d) ∈ (p.sessionEffect s a).after.handled → src i d) :
    PayloadLocal src (p.sessionEffect s a).sh (p.sessionEffect s a).after := by
  have hstays := hl.mono (.refl _) (fun _ h => h) hsrc
  cases a with
  | thread c => exact payloadLocal_protocol hs hown hl hrange hsrc hnew
  | scan m =>
      simp only [sessionEffect]
      split
      all_goals exact hstays
  | readFails _ | received _ => exact hstays
  | _ =>
      simp only [sessionEnabled, Bool.and_eq_true, decide_eq_true_eq] at hen
      simp only [sessionEffect]
      repeat' split
      all_goals simp [PayloadLocal, Effect.after, panicEffect, Session.goto,
        Session.took, hen]

theorem sourced_step {a : Act} (h : Sourced cfg p i d)
    (hstep : p.step a = some p') : Sourced cfg p' i d := by
  cases h with
  | seeded hasFile inRange cut => exact .seeded hasFile inRange cut
  | received s taken => exact .received s (handled_step hstep taken)

theorem served_sourced {a : SessionAct} (hen : p.sessionEnabled s a = true)
    (hl : PayloadLocal src p.sh (p.sess s)) {j : Int}
    (hsent : .actual (.pieceMsg j d) ∈ (p.sessionEffect s a).after.sent) :
    .actual (.pieceMsg j d) ∈ (p.sess s).sent ∨ ∃ i : Nat, j = i ∧ src i d := by
  have hact := actCases hen
  generalize p.sessionEffect s a = e at hact hsent
  cases hact with
  | thread c =>
      rw [sent_protocol, List.mem_append] at hsent
      rcases hsent with hsent | hsent
      · exact .inl hsent
      · obtain ⟨i, hij, hpc⟩ := mayWrite_protocol _ hsent
        simp only [PayloadLocal, hpc] at hl
        exact .inr ⟨i, hij, hl⟩
  | setup stands goes quiet keeps =>
      rw [keeps.sent] at hsent
      exact .inl hsent
  | idle after =>
      obtain ⟨n, heq⟩ := after
      rw [heq] at hsent
      exact .inl hsent

theorem traced_step {a : Act} (h : Traced cfg p) (hown : Owning cfg.nPieces p)
    (hstep : p.step a = some p') : Traced cfg p' := by
  have hsrc : ∀ i d, Sourced cfg p i d → Sourced cfg p' i d :=
    fun i d hd => sourced_step hd hstep
  have hadv := hown.advances hstep
  obtain ⟨-, ⟨s, act, rfl, hen, rfl⟩ | hb⟩ := step_cases hstep
  · have hl := h.locals s
    have hrange : ∀ i d, (p.sess s).pc = .savePiece i d → i < cfg.nPieces := by
      intro i d hpc
      have htaken := hown.locals s
      simp only [OwnLocal, hpc] at htaken
      rw [← hown.length]
      exact htaken.elim (fun h => (List.getElem?_eq_some_iff.mp h).1)
        fun h => (List.getElem?_eq_some_iff.mp h).1
    have hrepo := repoStep_sessionEffect (p := p) (s := s) (a := act)
    have hdisk : ∀ i, OnDisk (Sourced cfg p) p.sh.repo i →
        OnDisk (Sourced cfg p) (p.sessionEffect s act).sh.repo i :=
      fun i hi => hrepo.onDisk h.stocked hrange hl hi
    refine ⟨?_, fun t => ?_, fun t j d hsent => ?_⟩
    · exact (hrepo.stocked (sessionEffect_own hen) h.stocked hrange hl).mono hsrc
    · by_cases hts : t = s
      · subst t
        rw [commit_self]
        refine payloadLocal_sessionEffect hen h.stocked hown hl hrange hsrc ?_
        intro i d hd
        refine .received s ?_
        rwa [commit_self, Session.enqAll_handled]
      · rw [commit_of_ne hts]
        exact (h.locals t).mono hadv hdisk hsrc
    · -- a piece is written before the step, or it is the one in hand
      have hold : .actual (.pieceMsg j d) ∈ (p.sess t).sent ∨
          ∃ i : Nat, j = i ∧ Sourced cfg p i d := by
        rw [commit_sess, Session.enqAll_sent] at hsent
        by_cases hts : t = s
        · subst t
          rw [moved_self] at hsent
          exact served_sourced hen hl hsent
        · rw [moved_of_ne hts] at hsent
          exact .inl hsent
      rcases hold with hold | ⟨i, hij, hd⟩
      · obtain ⟨i, hij, hd⟩ := h.written t j d hold
        exact ⟨i, hij, hsrc i d hd⟩
      · exact ⟨i, hij, hsrc i d hd⟩
  · refine ⟨?_, fun t => ?_, fun t j d hsent => ?_⟩
    · obtain ⟨h1, h2, h3, h4, h5, h6⟩ := h.stocked
      rw [← hb.repo] at h1 h2 h3 h4 h5 h6
      rw [← hb.own] at h6
      exact Stocked.mono ⟨h1, h2, h3, h4, h5, h6⟩ hsrc
    · obtain ⟨es, -, heq⟩ := hb.sess t
      rw [heq]
      refine (h.locals t).mono hadv ?_ hsrc
      rw [hb.repo]
      exact fun _ hi => hi
    · obtain ⟨es, -, heq⟩ := hb.sess t
      rw [heq] at hsent
      obtain ⟨i, hij, hd⟩ := h.written t j d hsent
      exact ⟨i, hij, hsrc i d hd⟩

theorem traced_init : Traced cfg (init cfg) where
  stocked :=
    { size := rfl
      pieceSize := rfl
      writable := rfl
      file := fun hfile => by simp [init, hfile]
      cache := nofun
      owned := fun hfile i hi => by
        simp [init, hfile, SyncPieceBitfield.init, List.getElem?_replicate] at hi }
  locals _ := trivial
  written := nofun

theorem traced_reachable (h : Reachable cfg p) : Traced cfg p :=
  h.invariant (I := Traced cfg) traced_init fun _ _ _ hr ih _ hstep =>
    traced_step ih (owning_reachable hr) hstep

/--
Against arbitrary peers, whatever the order of the threads: each piece that a
process without the file owns is on its disk exactly as one message brought it,
and each piece that any process serves is one it was brought, or one of the file
that it began with.
-/
theorem pieces_untorn (h : Reachable cfg p) :
    (cfg.hasFile = false → ∀ i : Nat, p.sh.own.sv[i]? = some .owned →
      ∃ s d, .actual (.pieceMsg i d) ∈ (p.sess s).handled ∧
        readAt p.sh.repo.file (i * cfg.pieceSize) d.length = some d ∧
        d.length = min cfg.pieceSize (cfg.fileSize - i * cfg.pieceSize)) ∧
    ∀ s (j : Int) d, .actual (.pieceMsg j d) ∈ (p.sess s).sent →
      ∃ i : Nat, j = i ∧ p.sh.own.sv[i]? = some .owned ∧
        ((cfg.hasFile = true ∧ d = chunk cfg.file cfg.pieceSize i) ∨
          ∃ t, .actual (.pieceMsg i d) ∈ (p.sess t).handled) := by
  have htraced := traced_reachable h
  refine ⟨fun hfile i hi => ?_, fun s j d hsent => ?_⟩
  · obtain ⟨d, hread, hd⟩ := htraced.stocked.owned hfile i hi
    cases hd with
    | seeded hasFile => rw [hfile] at hasFile; cases hasFile
    | received s taken =>
        have hlen := (readAt_eq_some_iff.mp hread).2.1
        rw [PieceRepository.read, ← hlen, htraced.stocked.pieceSize] at hread
        refine ⟨s, d, taken, hread, ?_⟩
        rw [hlen, PieceRepository.expectedSize, htraced.stocked.pieceSize,
          htraced.stocked.size, hfile]
        rfl
  · obtain ⟨i, rfl, hd⟩ := htraced.written s j d hsent
    obtain ⟨i', hij, hown⟩ := (served_reachable h s).written _ d hsent
    cases Int.natCast_inj.mp hij
    refine ⟨i, rfl, hown, ?_⟩
    cases hd with
    | seeded hasFile inRange cut => exact .inl ⟨hasFile, cut⟩
    | received t taken => exact .inr ⟨t, taken⟩

/-- The peer of session 1 sends the piece that session 0 has asked for, with
other bytes, and is saved last. -/
def overwritten : Proc :=
  (run step (init leech) (setupRun 0 [.owned] ++ setupRun 1 [.owned] ++
    receive 0 .unchokeMsg 5 ++ receive 0 (.pieceMsg 0 [7]) 2 ++
    receive 1 (.pieceMsg 0 [9]) 2 ++ threadSteps 0 6 ++
    threadSteps 1 1)).get (by decide)

theorem pieces_untorn_overwritten :
    overwritten.sh.own.sv = [.owned] ∧ overwritten.sh.repo.file = [9] ∧
      ∃ s d, .actual (.pieceMsg (0 : Nat) d) ∈ (overwritten.sess s).handled ∧
        readAt overwritten.sh.repo.file (0 * leech.pieceSize) d.length = some d ∧
        d.length = min leech.pieceSize (leech.fileSize - 0 * leech.pieceSize) :=
  have hr : Reachable leech overwritten := reachable_get _
  ⟨by decide, by decide, (pieces_untorn hr).1 rfl 0 (by decide)⟩

end Proc

end CntPeer
