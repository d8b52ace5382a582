import CntPeer.Process.Seats

/-!
# The optimistic slot and the preferred slots

The four operations of the collection as a system of their own: any sessions,
any number of slots, and commands that the sessions process at any time or
between any two operations.  `pnAlgorithm` resets `opt` only when it supplants
someone, which is not when `opt` is promoted.
-/

namespace CntPeer

open CntPeer.Foundation

/-- A collection, its sessions, and the timer commands not yet processed. -/
structure Slots where
  sc : SessionCollection
  v : Sid → Session
  posts : Posts

inductive SlotAct where
  | pnAlgorithm (order : List Sn)
  | optAlgorithm (rnd : Nat)
  | tryPreempt (sRef : Nat)
  | relinquish (sRef : Nat)
  | process
  /-- the sessions change for other reasons -/
  | sessions (v : Sid → Session)

/-- `peer_choke` once the commands to `s` are processed. -/
def flagAfter (posts : Posts) (s : Sid) (flag : ChokeStatus) : ChokeStatus :=
  posts.foldl
    (fun flag e =>
      if e.1 = s then
        match e.2 with
        | .timerChoke => .choked
        | .timerUnchoke => .unchoked
        | _ => flag
      else flag) flag

namespace Slots

def start (nUnfinishedSession : Int) (nPn : Nat) (ss : List Sn)
    (v : Sid → Session) : Slots where
  sc := { SessionCollection.init nUnfinishedSession nPn with ss := ss }
  v := v
  posts := []

def after (x : Slots) (r : Option (SessionCollection × Posts)) :
    Option Slots :=
  r.map fun e => { x with sc := e.1, posts := x.posts ++ e.2 }

def step (x : Slots) : SlotAct → Option Slots
  | .pnAlgorithm order =>
      if (x.sc.updateByteCounts x.v).NthElement x.v x.sc.nnPn order then
        x.after (x.sc.pnAlgorithm x.v order)
      else none
  | .optAlgorithm rnd => x.after (x.sc.optAlgorithm x.v rnd)
  | .tryPreempt sRef => x.after (x.sc.tryPreempt x.v sRef).toOption
  | .relinquish sRef => x.after (x.sc.relinquish x.v sRef).toOption
  | .process =>
      some { x with
        v := fun s => { x.v s with
          peerChoke := flagAfter x.posts s (x.v s).peerChoke }
        posts := [] }
  | .sessions v => some { x with v := v }

def Chosen (x : Slots) (order : List Sn) (e : Sn) : Prop :=
  e ∈ order.take x.sc.nnPn ∧ (x.v e.s).isActive = true

instance (x : Slots) (order : List Sn) (e : Sn) :
    Decidable (x.Chosen order e) :=
  inferInstanceAs (Decidable (_ ∧ _))

/-- When `opt` is chosen, some preferred neighbour is not. -/
def Supplants (x : Slots) (order : List Sn) : Prop :=
  ∀ o ∈ x.sc.opt, x.Chosen order o → ∃ e ∈ x.sc.pnSet.items, ¬x.Chosen order e

instance (x : Slots) (order : List Sn) : Decidable (x.Supplants order) :=
  inferInstanceAs (Decidable (∀ o ∈ x.sc.opt, _))

/-- The timer that promotes `opt` supplants someone, and the optimistic timer
draws no preferred neighbour. -/
def Separates (x : Slots) : SlotAct → Prop
  | .pnAlgorithm order => x.Supplants order
  | .optAlgorithm rnd => ∀ e ∈ x.sc.lucky x.v rnd, x.sc.pnSet.contains e = false
  | _ => True

instance (x : Slots) : (a : SlotAct) → Decidable (x.Separates a)
  | .pnAlgorithm order => inferInstanceAs (Decidable (x.Supplants order))
  | .optAlgorithm rnd =>
      inferInstanceAs (Decidable (∀ e ∈ x.sc.lucky x.v rnd, _))
  | .tryPreempt _ | .relinquish _ | .process | .sessions _ => .isTrue trivial

/-- All commands are processed between the operations; a session calls
`tryPreempt` once it is active. -/
def Processed (x : Slots) : SlotAct → Prop
  | .process => True
  | .sessions v => ∀ s, (v s).peerChoke = (x.v s).peerChoke ∧
      ((x.v s).isActive = true → (v s).isActive = true)
  | .tryPreempt sRef => x.posts = [] ∧
      ∀ e ∈ x.sc.findAddr sRef, (x.v e.s).isActive = true
  | _ => x.posts = []

/-- The sessions are distinct, and no session holds both kinds of slot. -/
structure Apart (nPn : Nat) (sc : SessionCollection) : Prop where
  addrs : (sc.ss.map Sn.addr).Nodup
  sids : (sc.ss.map Sn.s).Nodup
  members : ∀ e ∈ sc.pnSet.items, e ∈ sc.ss
  optMember : ∀ o ∈ sc.opt, o ∈ sc.ss
  strict : sc.pnSet.Strict
  seats : sc.nPn = nPn
  size : sc.pnSet.size ≤ nPn
  apart : ∀ o ∈ sc.opt, sc.pnSet.contains o = false

variable {x x' : Slots} {nPn : Nat} {e o : Sn} {posts : Posts}
  {sc' : SessionCollection}

theorem mem_of_findAddr {sc : SessionCollection} {sRef : Nat}
    (h : sc.findAddr sRef = some e) : e ∈ sc.ss :=
  List.mem_of_find?_eq_some h

theorem Apart.contains_iff {sc : SessionCollection} (h : Apart nPn sc)
    (he : e ∈ sc.ss) : sc.pnSet.contains e = true ↔ e ∈ sc.pnSet.items := by
  rw [SortedVec.contains_iff]
  constructor
  · rintro ⟨y, hy, haddr⟩
    exact Proc.eq_of_addr h.addrs (h.members y hy) he haddr ▸ hy
  · intro hmem
    exact ⟨e, hmem, rfl⟩

theorem mem_newPnSet {order : List Sn} :
    e ∈ (x.sc.newPnSet x.v order).items ↔ x.Chosen order e := by
  rw [SessionCollection.mem_newPnSet, SessionCollection.mem_selected, Chosen]

theorem Apart.pnAlgorithm {order : List Sn} (h : Apart nPn x.sc)
    (hok : x.Supplants order)
    (horder : (x.sc.updateByteCounts x.v).NthElement x.v x.sc.nnPn order)
    (hstep : x.sc.pnAlgorithm x.v order = some (sc', posts)) :
    Apart nPn sc' := by
  have hperm : order.Perm x.sc.ss := horder.1
  unfold SessionCollection.pnAlgorithm at hstep
  split at hstep
  swap
  · contradiction
  cases hstep
  have haddrs : (order.map Sn.addr).Nodup :=
    (hperm.map Sn.addr).nodup_iff.mpr h.addrs
  have hnew : ∀ y ∈ (x.sc.newPnSet x.v order).items, y ∈ order := fun y hy =>
    List.mem_of_mem_take (mem_newPnSet.mp hy).1
  have hsize : (x.sc.newPnSet x.v order).size ≤ x.sc.nPn :=
    SessionCollection.size_newPnSet_le order
  refine ⟨haddrs, (hperm.map Sn.s).nodup_iff.mpr h.sids, hnew, ?_,
    SessionCollection.strict_newPnSet haddrs, h.seats, h.seats ▸ hsize, ?_⟩
  · intro o ho
    dsimp only at ho
    split at ho
    · exact hperm.mem_iff.mpr (h.optMember o ho)
    · cases ho
  · intro o ho
    dsimp only at ho ⊢
    split at ho
    · rename_i hempty
      rw [Bool.eq_false_iff]
      intro hcontains
      obtain ⟨y, hy, haddr⟩ := (SortedVec.contains_iff _ _).mp hcontains
      obtain rfl := Proc.eq_of_addr h.addrs
        (hperm.mem_iff.mp (hnew y hy)) (h.optMember o ho) haddr
      -- the supplanted neighbour would have reset `opt`
      obtain ⟨e, he, hout⟩ := hok y ho (mem_newPnSet.mp hy)
      have hsup : e ∈ (x.sc.supplanted x.v order).items := by
        refine (h.strict.mem_difference _).mpr ⟨he, fun z hz haddr => ?_⟩
        obtain rfl := Proc.eq_of_addr h.addrs
          (hperm.mem_iff.mp (hnew z hz)) (h.members e he) haddr
        exact hout (mem_newPnSet.mp hz)
      rw [SortedVec.isEmpty, List.isEmpty_iff] at hempty
      rw [hempty] at hsup
      cases hsup
    · cases ho

theorem Apart.optAlgorithm {rnd : Nat} (h : Apart nPn x.sc)
    (hok : ∀ e ∈ x.sc.lucky x.v rnd, x.sc.pnSet.contains e = false)
    (hstep : x.sc.optAlgorithm x.v rnd = some (sc', posts)) :
    Apart nPn sc' := by
  unfold SessionCollection.optAlgorithm at hstep
  split at hstep
  · cases hstep
    exact h
  · rename_i e hlucky
    have hmem : e ∈ x.sc.ss :=
      List.mem_of_mem_filter (List.mem_of_getElem? hlucky)
    have hnew : Apart nPn { x.sc with opt := some e } := by
      refine ⟨h.addrs, h.sids, h.members, ?_, h.strict, h.seats, h.size, ?_⟩
      all_goals
        intro o ho
        cases ho
      · exact hmem
      · exact hok e hlucky
    repeat' split at hstep
    all_goals
      cases hstep
      try exact hnew

theorem Apart.preempts (h : Apart nPn x.sc) (he : e ∈ x.sc.ss)
    (hstep : SessionCollection.Preempts x.sc x.v e sc' posts) :
    Apart nPn sc' := by
  cases hstep with
  | keeps => exact h
  | prefers out notOpt room =>
      refine ⟨h.addrs, h.sids, ?_, h.optMember, h.strict.add out, h.seats, ?_, ?_⟩
      · intro y hy
        rcases SortedVec.mem_add.mp hy with rfl | hy
        · exact he
        · exact h.members y hy
      · rw [SortedVec.size_add]
        exact h.seats ▸ room
      · intro o ho
        rw [Bool.eq_false_iff]
        intro hcontains
        obtain ⟨y, hy, haddr⟩ := (SortedVec.contains_iff _ _).mp hcontains
        rcases SortedVec.mem_add.mp hy with rfl | hy
        · have hopt : x.sc.isOpt y.addr = true :=
            SessionCollection.isOpt_iff.mpr ⟨o, ho, haddr.symm⟩
          rw [notOpt] at hopt
          cases hopt
        · have hin := (SortedVec.contains_iff _ _).mpr ⟨y, hy, haddr⟩
          rw [h.apart o ho] at hin
          cases hin
  | opts out notOpt free =>
      refine ⟨h.addrs, h.sids, h.members, ?_, h.strict, h.seats, h.size, ?_⟩
      all_goals
        intro o ho
        cases ho
      · exact he
      · exact out

theorem Apart.relinquishes (h : Apart nPn x.sc)
    (hstep : SessionCollection.Relinquishes x.sc x.v e sc' posts) :
    Apart nPn sc' := by
  cases hstep with
  | keeps => exact h
  | leavesPn inside =>
      have hsub := (x.sc.pnSet.remove_sublist e).subset
      refine ⟨h.addrs, h.sids, fun y hy => h.members y (hsub hy), h.optMember,
        h.strict.remove e, h.seats,
        (x.sc.pnSet.size_remove_le e).trans h.size, fun o ho => ?_⟩
      rw [Bool.eq_false_iff]
      intro hcontains
      obtain ⟨y, hy, haddr⟩ := (SortedVec.contains_iff _ _).mp hcontains
      have hin := (SortedVec.contains_iff _ _).mpr ⟨y, hsub hy, haddr⟩
      rw [h.apart o ho] at hin
      cases hin
  | leavesOpt out isOpt =>
      refine ⟨h.addrs, h.sids, h.members, ?_, h.strict, h.seats, h.size, ?_⟩
      all_goals
        intro o ho
        cases ho

inductive Operates (x : Slots) : SlotAct → SessionCollection → Posts → Prop
  | pnAlgorithm {order : List Sn} {sc' : SessionCollection} {posts : Posts}
      (arranged :
        (x.sc.updateByteCounts x.v).NthElement x.v x.sc.nnPn order)
      (h : x.sc.pnAlgorithm x.v order = some (sc', posts)) :
      Operates x (.pnAlgorithm order) sc' posts
  | optAlgorithm {rnd : Nat} {sc' : SessionCollection} {posts : Posts}
      (h : x.sc.optAlgorithm x.v rnd = some (sc', posts)) :
      Operates x (.optAlgorithm rnd) sc' posts
  | preempts {sRef : Nat} {e : Sn} {sc' : SessionCollection} {posts : Posts}
      (found : x.sc.findAddr sRef = some e)
      (h : SessionCollection.Preempts x.sc x.v e sc' posts) :
      Operates x (.tryPreempt sRef) sc' posts
  | relinquishes {sRef : Nat} {e : Sn} {sc' : SessionCollection}
      {posts : Posts} (found : x.sc.findAddr sRef = some e)
      (h : SessionCollection.Relinquishes x.sc x.v e sc' posts) :
      Operates x (.relinquish sRef) sc' posts

theorem after_eq_some {r : Option (SessionCollection × Posts)} :
    x.after r = some x' ↔ ∃ sc' posts, r = some (sc', posts) ∧
      x' = { x with sc := sc', posts := x.posts ++ posts } := by
  simp only [after, Option.map_eq_some_iff, Prod.exists]
  constructor
  · rintro ⟨sc', posts, h, rfl⟩
    exact ⟨sc', posts, h, rfl⟩
  · rintro ⟨sc', posts, h, rfl⟩
    exact ⟨sc', posts, h, rfl⟩

theorem ok_of_toOption {ε α : Type} {r : Except ε α} {y : α}
    (h : r.toOption = some y) : r = .ok y := by
  cases r <;> cases h
  rfl

theorem step_cases {a : SlotAct} (h : x.step a = some x') :
    (∃ sc' posts, Operates x a sc' posts ∧
      x' = { x with sc := sc', posts := x.posts ++ posts }) ∨
    x'.sc = x.sc ∧ (a = .process ∨ ∃ v, a = .sessions v) := by
  cases a with
  | pnAlgorithm order =>
      simp only [step] at h
      split at h
      · obtain ⟨sc', posts, hr, rfl⟩ := after_eq_some.mp h
        exact .inl ⟨sc', posts, .pnAlgorithm ‹_› hr, rfl⟩
      · contradiction
  | optAlgorithm rnd =>
      obtain ⟨sc', posts, hr, rfl⟩ := after_eq_some.mp h
      exact .inl ⟨sc', posts, .optAlgorithm hr, rfl⟩
  | tryPreempt sRef =>
      obtain ⟨sc', posts, hr, rfl⟩ := after_eq_some.mp h
      have hok := ok_of_toOption hr
      cases hfind : x.sc.findAddr sRef with
      | none => simp [SessionCollection.tryPreempt, hfind] at hok
      | some e =>
          exact .inl ⟨sc', posts, .preempts hfind
            (SessionCollection.preempts_of_tryPreempt hfind hok), rfl⟩
  | relinquish sRef =>
      obtain ⟨sc', posts, hr, rfl⟩ := after_eq_some.mp h
      have hok := ok_of_toOption hr
      cases hfind : x.sc.findAddr sRef with
      | none => simp [SessionCollection.relinquish, hfind] at hok
      | some e =>
          exact .inl ⟨sc', posts, .relinquishes hfind
            (SessionCollection.relinquishes_of_relinquish hfind hok), rfl⟩
  | process =>
      cases h
      exact .inr ⟨rfl, .inl rfl⟩
  | sessions v =>
      cases h
      exact .inr ⟨rfl, .inr ⟨v, rfl⟩⟩

theorem Apart.step {a : SlotAct} (h : Apart nPn x.sc) (hok : x.Separates a)
    (hstep : x.step a = some x') : Apart nPn x'.sc := by
  rcases step_cases hstep with ⟨sc', posts, hop, rfl⟩ | ⟨hsc, -⟩
  · cases hop with
    | pnAlgorithm arranged hr => exact h.pnAlgorithm hok arranged hr
    | optAlgorithm hr => exact h.optAlgorithm hok hr
    | preempts found hp => exact h.preempts (mem_of_findAddr found) hp
    | relinquishes found hr => exact h.relinquishes hr
  · rw [hsc]
    exact h

theorem apart_start {nUnfinishedSession : Int} {ss : List Sn}
    {v : Sid → Session} (haddrs : (ss.map Sn.addr).Nodup)
    (hsids : (ss.map Sn.s).Nodup) :
    Apart nPn (start nUnfinishedSession nPn ss v).sc where
  addrs := haddrs
  sids := hsids
  members := nofun
  optMember := nofun
  strict := SortedVec.strict_empty
  seats := rfl
  size := Nat.zero_le _
  apart := nofun

theorem flagAfter_unchoked {b : Posts} {s : Sid}
    (honly : ∀ ev, (s, ev) ∈ b → ev = .timerUnchoke) :
    ∀ {flag : ChokeStatus}, (s, .timerUnchoke) ∈ b ∨ flag = .unchoked →
      flagAfter b s flag = .unchoked := by
  induction b with
  | nil =>
      rintro flag (h | h)
      · cases h
      · exact h
  | cons e b ih =>
      intro flag h
      obtain ⟨t, ev⟩ := e
      refine ih (fun ev hev => honly ev (List.mem_cons_of_mem _ hev)) ?_
      by_cases hts : t = s
      · subst t
        rw [honly ev List.mem_cons_self]
        simp
      · rcases h with h | h
        · rcases List.mem_cons.mp h with h | h
          · exact absurd (Prod.mk.inj h).1.symm hts
          · exact .inl h
        · exact .inr (by simp [hts, h])

theorem flagAfter_append (a b : Posts) (s : Sid) (flag : ChokeStatus) :
    flagAfter (a ++ b) s flag = flagAfter b s (flagAfter a s flag) :=
  List.foldl_append ..

def Preferred (x : Slots) : Prop :=
  ∀ e ∈ x.sc.pnSet.items, (x.v e.s).isActive = true ∧
    flagAfter x.posts e.s (x.v e.s).peerChoke = .unchoked

theorem Preferred.not_drawn {rnd : Nat} (h : x.Preferred) (hposts : x.posts = [])
    (hapart : Apart nPn x.sc) :
    ∀ e ∈ x.sc.lucky x.v rnd, x.sc.pnSet.contains e = false := by
  intro e he
  have hmem := List.mem_filter.mp (List.mem_of_getElem? he)
  rw [Bool.eq_false_iff, ne_eq, hapart.contains_iff hmem.1]
  intro hpn
  have hflag := (h e hpn).2
  rw [hposts] at hflag
  have helig := hmem.2
  simp only [SessionCollection.eligible, Bool.and_eq_true,
    decide_eq_true_eq] at helig
  rw [helig.1.2] at hflag
  cases hflag

theorem mem_chokeCmd {v : Sid → Session} {s : Sid} {ev : Event} :
    (s, ev) ∈ chokeCmd v e ↔
      (v e.s).isActive = true ∧ s = e.s ∧ ev = .timerChoke := by
  unfold chokeCmd
  split <;> simp_all

theorem mem_unchokeCmd {v : Sid → Session} {s : Sid} {ev : Event} :
    (s, ev) ∈ unchokeCmd v e ↔
      (v e.s).isActive = true ∧ s = e.s ∧ ev = .timerUnchoke := by
  unfold unchokeCmd
  split <;> simp_all

theorem mem_replacementCmd {v : Sid → Session} {sc : SessionCollection}
    {s : Sid} {ev : Event} (h : (s, ev) ∈ sc.replacementCmd v) :
    ev = .timerUnchoke := by
  unfold SessionCollection.replacementCmd at h
  split at h
  · cases h
  · exact (mem_unchokeCmd.mp h).2.2

theorem choked_by_optAlgorithm {rnd : Nat} {s : Sid} {ev : Event}
    (h : x.sc.optAlgorithm x.v rnd = some (sc', posts))
    (hmem : (s, ev) ∈ posts) :
    ev = .timerUnchoke ∨ ∃ o ∈ x.sc.opt, s = o.s := by
  unfold SessionCollection.optAlgorithm at h
  repeat' split at h
  all_goals cases h
  · cases hmem
  · exact .inl (mem_unchokeCmd.mp hmem).2.2
  · rcases List.mem_append.mp hmem with hmem | hmem
    · exact .inl (mem_unchokeCmd.mp hmem).2.2
    · exact .inr ⟨_, ‹_›, (mem_chokeCmd.mp hmem).2.1⟩

theorem Apart.eq_of_sid {sc : SessionCollection} (h : Apart nPn sc)
    (he : e ∈ sc.ss) (ho : o ∈ sc.ss) (hs : e.s = o.s) : e = o :=
  List.inj_on_of_nodup_map h.sids he ho hs

theorem Apart.ne_opt {sc : SessionCollection} (h : Apart nPn sc)
    (he : e ∈ sc.pnSet.items) (ho : o ∈ sc.opt) : e.s ≠ o.s := by
  intro hs
  have hmem := h.members e he
  obtain rfl := h.eq_of_sid hmem (h.optMember o ho) hs
  have hin := (h.contains_iff hmem).mpr he
  rw [h.apart e ho] at hin
  cases hin

theorem Preferred.pnAlgorithm {order : List Sn}
    (h : x.sc.pnAlgorithm x.v order = some (sc', posts)) :
    ∀ e ∈ sc'.pnSet.items, (x.v e.s).isActive = true ∧
      flagAfter posts e.s (x.v e.s).peerChoke = .unchoked := by
  unfold SessionCollection.pnAlgorithm at h
  split at h
  swap
  · contradiction
  cases h
  intro e he
  have hactive := (mem_newPnSet.mp he).2
  refine ⟨hactive, ?_⟩
  rw [flagAfter_append]
  refine flagAfter_unchoked (fun ev hev => ?_) (.inl ?_)
  · obtain ⟨y, -, hy⟩ := List.mem_flatMap.mp hev
    exact (mem_unchokeCmd.mp hy).2.2
  · exact List.mem_flatMap.mpr ⟨e, he, mem_unchokeCmd.mpr ⟨hactive, rfl, rfl⟩⟩

/-- An operation on processed commands leaves its own commands to the preferred
neighbours, who end up unchoked. -/
theorem Preferred.operates {a : SlotAct} (h : x.Preferred)
    (hapart : Apart nPn x.sc) (hok : x.Processed a)
    (hop : Operates x a sc' posts) :
    x.posts = [] ∧ ∀ e ∈ sc'.pnSet.items, (x.v e.s).isActive = true ∧
      flagAfter posts e.s (x.v e.s).peerChoke = .unchoked := by
  have hold : x.posts = [] → ∀ e ∈ x.sc.pnSet.items,
      (∀ ev, (e.s, ev) ∈ posts → ev = .timerUnchoke) →
      (x.v e.s).isActive = true ∧
        flagAfter posts e.s (x.v e.s).peerChoke = .unchoked := by
    intro hposts e he honly
    have hflag := (h e he).2
    rw [hposts] at hflag
    exact ⟨(h e he).1, flagAfter_unchoked honly (.inr hflag)⟩
  cases hop with
  | pnAlgorithm arranged hr => exact ⟨hok, Preferred.pnAlgorithm hr⟩
  | optAlgorithm hr =>
      refine ⟨hok, fun e he => ?_⟩
      have hpn : e ∈ x.sc.pnSet.items := by
        unfold SessionCollection.optAlgorithm at hr
        repeat' split at hr
        all_goals
          cases hr
          try exact he
      refine hold hok e hpn fun ev hev => ?_
      rcases choked_by_optAlgorithm hr hev with hev | ⟨o, ho, hs⟩
      · exact hev
      · exact absurd hs (hapart.ne_opt hpn ho)
  | preempts found hp =>
      refine ⟨hok.1, ?_⟩
      have hactive := hok.2 _ found
      cases hp with
      | keeps => exact fun e he => hold hok.1 e he (by simp)
      | prefers out notOpt room =>
          intro y hy
          rcases SortedVec.mem_add.mp hy with rfl | hy
          · exact ⟨hactive, flagAfter_unchoked
              (fun ev hev => (mem_unchokeCmd.mp hev).2.2)
              (.inl (mem_unchokeCmd.mpr ⟨hactive, rfl, rfl⟩))⟩
          · exact hold hok.1 y hy fun ev hev => (mem_unchokeCmd.mp hev).2.2
      | opts out notOpt free =>
          exact fun y hy =>
            hold hok.1 y hy fun ev hev => (mem_unchokeCmd.mp hev).2.2
  | relinquishes found hr =>
      refine ⟨hok, ?_⟩
      have hmem := mem_of_findAddr found
      cases hr with
      | keeps => exact fun e he => hold hok e he (by simp)
      | leavesPn inside =>
          intro y hy
          obtain ⟨hpn, hne⟩ := (hapart.strict.mem_remove inside).mp hy
          refine hold hok y hpn fun ev hev => ?_
          rcases List.mem_append.mp hev with hev | hev
          · have hs := (mem_chokeCmd.mp hev).2.1
            rw [hapart.eq_of_sid (hapart.members y hpn) hmem hs] at hne
            exact absurd rfl hne
          · exact mem_replacementCmd hev
      | leavesOpt out isOpt =>
          intro y hy
          refine hold hok y hy fun ev hev => ?_
          rcases List.mem_append.mp hev with hev | hev
          · have hs := (mem_chokeCmd.mp hev).2.1
            obtain ⟨o, ho, haddr⟩ := SessionCollection.isOpt_iff.mp isOpt
            obtain rfl :=
              Proc.eq_of_addr hapart.addrs (hapart.optMember o ho) hmem haddr
            exact absurd hs (hapart.ne_opt hy ho)
          · exact mem_replacementCmd hev

theorem Preferred.step {a : SlotAct} (h : x.Preferred)
    (hapart : Apart nPn x.sc) (hok : x.Processed a)
    (hstep : x.step a = some x') : x'.Preferred := by
  rcases step_cases hstep with ⟨sc', posts, hop, rfl⟩ | ⟨-, rfl | ⟨v, rfl⟩⟩
  · obtain ⟨hposts, hall⟩ := h.operates hapart hok hop
    rw [Preferred, hposts]
    exact hall
  · cases hstep
    exact h
  · cases hstep
    intro e he
    rw [(hok e.s).1]
    exact ⟨(hok e.s).2 (h e he).1, (h e he).2⟩

def Promotes (x : Slots) (a : SlotAct) : Prop :=
  x.Processed a ∧ ∀ order, a = .pnAlgorithm order → x.Supplants order

/-- With all commands processed, only the promotion of `opt` can go wrong. -/
theorem Preferred.separates {a : SlotAct} (h : x.Preferred)
    (hapart : Apart nPn x.sc) (hok : x.Promotes a) : x.Separates a := by
  cases a with
  | pnAlgorithm order => exact hok.2 order rfl
  | optAlgorithm rnd => exact h.not_drawn hok.1 hapart
  | _ => trivial

theorem apart_reaches {nUnfinishedSession : Int} {ss : List Sn}
    {v : Sid → Session} (haddrs : (ss.map Sn.addr).Nodup)
    (hsids : (ss.map Sn.s).Nodup)
    (h : Reaches step Separates (start nUnfinishedSession nPn ss v) x) :
    Apart nPn x.sc :=
  h.invariant (I := fun x => Apart nPn x.sc) (apart_start haddrs hsids)
    fun _ _ _ _ ih hok hstep => ih.step hok hstep

theorem separates_of_promotes {nUnfinishedSession : Int} {ss : List Sn}
    {v : Sid → Session} (haddrs : (ss.map Sn.addr).Nodup)
    (hsids : (ss.map Sn.s).Nodup)
    (h : Reaches step Promotes (start nUnfinishedSession nPn ss v) x) :
    Reaches step Separates (start nUnfinishedSession nPn ss v) x := by
  have hboth : Reaches step Separates (start nUnfinishedSession nPn ss v) x ∧
      x.Preferred := by
    refine h.invariant (I := fun x => Reaches step Separates
      (start nUnfinishedSession nPn ss v) x ∧ x.Preferred)
      ⟨.start, fun e he => by cases he⟩ ?_
    rintro y a y' - ⟨hrun, hpref⟩ hok hstep
    have hapart := apart_reaches haddrs hsids hrun
    exact ⟨hrun.tail (hpref.separates hapart hok) hstep,
      hpref.step hapart hok.1 hstep⟩
  exact hboth.1

/--
In every run that promotes `opt` only along with a supplanted neighbour, and
that draws no preferred neighbour or processes all commands between the
operations: the preferred neighbours are at most `nPn`, `opt` is none of them,
and the optimistic timer chokes none of them.
-/
theorem opt_never_preferred {nUnfinishedSession : Int} {ss : List Sn}
    {v : Sid → Session} (haddrs : (ss.map Sn.addr).Nodup)
    (hsids : (ss.map Sn.s).Nodup)
    (h : Reaches step Separates (start nUnfinishedSession nPn ss v) x ∨
      Reaches step Promotes (start nUnfinishedSession nPn ss v) x) :
    x.sc.pnSet.size ≤ nPn ∧
      (∀ o ∈ x.sc.opt, x.sc.pnSet.contains o = false) ∧
      ∀ rnd sc' posts, x.sc.optAlgorithm x.v rnd = some (sc', posts) →
        ∀ e ∈ x.sc.pnSet.items, (e.s, .timerChoke) ∉ posts := by
  have hapart : Apart nPn x.sc := by
    rcases h with h | h
    · exact apart_reaches haddrs hsids h
    · exact apart_reaches haddrs hsids (separates_of_promotes haddrs hsids h)
  refine ⟨hapart.size, hapart.apart, fun rnd sc' posts hopt e he hmem => ?_⟩
  rcases choked_by_optAlgorithm hopt hmem with hev | ⟨o, ho, hs⟩
  · cases hev
  · exact hapart.ne_opt he ho hs

def eligibleSession : Session :=
  { Session.fresh with
    isActive := true, peerChoke := .choked, peerInterest := .interested }

/-- One slot: session 0 takes it and session 1 becomes `opt`, session 1 is
promoted and supplants session 0, which is drawn next. -/
def promoted : Slots :=
  (run (checkedStep step Separates)
    (start 2 1 [⟨0, 0⟩, ⟨1, 1⟩] fun _ => eligibleSession)
    [.tryPreempt 0, .process, .optAlgorithm 0, .process,
      .pnAlgorithm [⟨1, 1⟩, ⟨0, 0⟩], .process, .optAlgorithm 0]).get (by decide)

theorem opt_never_preferred_promoted :
    (promoted.sc.pnSet.items = [⟨1, 1⟩] ∧ promoted.sc.opt = some ⟨0, 0⟩) ∧
      promoted.sc.pnSet.size ≤ 1 ∧
      (∀ o ∈ promoted.sc.opt, promoted.sc.pnSet.contains o = false) ∧
      ∀ rnd sc' posts,
        promoted.sc.optAlgorithm promoted.v rnd = some (sc', posts) →
        ∀ e ∈ promoted.sc.pnSet.items, (e.s, .timerChoke) ∉ posts := by
  have hrun : Reaches step Separates
      (start 2 1 [⟨0, 0⟩, ⟨1, 1⟩] fun _ => eligibleSession) promoted :=
    reaches_get _
  exact ⟨by decide, opt_never_preferred (by decide) (by decide) (.inl hrun)⟩

/-- The optimistic timer ticks first, and the other timer then prefers the
session it drew: no one is supplanted, so `opt` stays. -/
theorem opt_preferred :
    ¬ ∀ (nUnfinishedSession : Int) (nPn : Nat) (ss : List Sn)
      (v : Sid → Session) (x : Slots), (ss.map Sn.addr).Nodup →
      (ss.map Sn.s).Nodup →
      Reaches step Processed (start nUnfinishedSession nPn ss v) x →
      ∀ o ∈ x.sc.opt, x.sc.pnSet.contains o = false := by
  intro h
  have hrun : Reaches step Processed
      (start 2 1 [⟨0, 0⟩, ⟨1, 1⟩] fun _ => eligibleSession) _ :=
    .tail (.tail (.tail .start rfl (a := .optAlgorithm 1) rfl) trivial
      (a := .process) rfl) rfl (a := .pnAlgorithm [⟨1, 1⟩, ⟨0, 0⟩]) rfl
  have hout := h 2 1 _ _ _ (by decide) (by decide) hrun ⟨1, 1⟩ rfl
  exact absurd hout (by decide)

end Slots

end CntPeer
