import CntPeer.Foundation.Tally
import CntPeer.Foundation.Transition
import CntPeer.Session.State

/-!
# `BlockingQueue`

The queue, its mutex and its condition variable, with any number of threads of
type `θ` in the middle of `enq`, `deq` and `isEmpty`.  Between two steps of a
thread the others may take any number of theirs.
-/

namespace CntPeer

open CntPeer.Foundation

/-- Where a thread stands in the operations of one queue. -/
inductive QueuePlace (α : Type*) where
  | outside
  -- `enq`
  | enqLock (e : α)
  | enqPush (e : α)
  | enqUnlock
  | enqNotify
  -- `deq`; `deqTest` is the predicate of `cond.wait`
  | deqLock
  | deqTest
  | deqWait
  | asleep
  | relock
  | deqPop
  | deqUnlock (e : α)
  -- `isEmpty`
  | isEmptyLock
  | isEmptyRead
  | isEmptyUnlock (b : Bool)
  deriving DecidableEq

inductive QueueAct (α θ : Type*) where
  | enq (t : θ) (e : α)
  | deq (t : θ)
  | isEmpty (t : θ)
  | thread (t : θ)
  | notify (t u : θ)
  | notifyNobody (t : θ)
  | spurious (u : θ)

structure BlockingQueue (α θ : Type*) where
  q : List α := []
  m : Option θ := none
  cond : List θ := []
  place : θ → QueuePlace α := fun _ => .outside
  /-- history: elements in the order of their pushes -/
  pushed : List α := []
  /-- history: elements in the order of their pops -/
  popped : List α := []

/-- Queues of events; `q` is the `eq` of a session. -/
abbrev EventQueue (θ : Type*) := BlockingQueue Event θ

namespace BlockingQueue

variable {α θ : Type*} [DecidableEq θ]

def fresh : BlockingQueue α θ := {}

def goto (x : BlockingQueue α θ) (t : θ) (p : QueuePlace α) :
    BlockingQueue α θ :=
  { x with place := Function.update x.place t p }

def call (x : BlockingQueue α θ) (t : θ) (p : QueuePlace α) :
    Option (BlockingQueue α θ) :=
  match x.place t with
  | .outside => some (x.goto t p)
  | _ => none

def lock (x : BlockingQueue α θ) (t : θ) (p : QueuePlace α) :
    Option (BlockingQueue α θ) :=
  match x.m with
  | none => some ({ x with m := some t }.goto t p)
  | some _ => none

def unlock (x : BlockingQueue α θ) (t : θ) (p : QueuePlace α) :
    BlockingQueue α θ :=
  { x with m := none }.goto t p

def wake (x : BlockingQueue α θ) (u : θ) : BlockingQueue α θ :=
  { x with cond := x.cond.erase u }.goto u .relock

def thread (x : BlockingQueue α θ) (t : θ) : Option (BlockingQueue α θ) :=
  match x.place t with
  | .outside | .enqNotify | .asleep => none
  | .enqLock e => x.lock t (.enqPush e)
  | .enqPush e =>
      some ({ x with q := x.q ++ [e], pushed := x.pushed ++ [e] }.goto t
        .enqUnlock)
  | .enqUnlock => some (x.unlock t .enqNotify)
  | .deqLock => x.lock t .deqTest
  | .deqTest => some (x.goto t (if x.q.isEmpty then .deqWait else .deqPop))
  | .deqWait =>
      -- the mutex is released and the thread enqueued in one step
      some ({ x with cond := t :: x.cond }.unlock t .asleep)
  | .relock => x.lock t .deqTest
  | .deqPop =>
      match x.q with
      | [] => none
      | e :: rest =>
          some ({ x with q := rest, popped := x.popped ++ [e] }.goto t
            (.deqUnlock e))
  | .deqUnlock _ => some (x.unlock t .outside)
  | .isEmptyLock => x.lock t .isEmptyRead
  | .isEmptyRead => some (x.goto t (.isEmptyUnlock x.q.isEmpty))
  | .isEmptyUnlock _ => some (x.unlock t .outside)

def step (x : BlockingQueue α θ) : QueueAct α θ → Option (BlockingQueue α θ)
  | .enq t e => x.call t (.enqLock e)
  | .deq t => x.call t .deqLock
  | .isEmpty t => x.call t .isEmptyLock
  | .thread t => x.thread t
  | .notify t u =>
      match x.place t with
      | .enqNotify =>
          if u ∈ x.cond then some ((x.wake u).goto t .outside) else none
      | _ => none
  | .notifyNobody t =>
      match x.place t with
      | .enqNotify =>
          if x.cond.isEmpty then some (x.goto t .outside) else none
      | _ => none
  | .spurious u => if u ∈ x.cond then some (x.wake u) else none

abbrev Reachable (x : BlockingQueue α θ) : Prop :=
  Foundation.Reachable step fresh x

end BlockingQueue

namespace QueuePlace

variable {α : Type*}

def holds : QueuePlace α → Bool
  | enqPush _ | enqUnlock | deqTest | deqWait | deqPop | deqUnlock _
  | isEmptyRead | isEmptyUnlock _ => true
  | _ => false

def headsForTest : QueuePlace α → Bool
  | deqLock | deqTest | relock => true
  | _ => false

def owesNotify : QueuePlace α → Bool
  | enqUnlock | enqNotify => true
  | _ => false

def willNotify : QueuePlace α → Bool
  | enqLock _ | enqPush _ | enqUnlock | enqNotify => true
  | _ => false

def aboutToPop : QueuePlace α → Bool
  | deqPop => true
  | _ => false

def serves (p : QueuePlace α) : Nat :=
  (p.headsForTest || p.owesNotify || p.aboutToPop).toNat

def Knows (q : List α) : QueuePlace α → Prop
  | deqPop => q ≠ []
  | deqWait => q = []
  | _ => True

theorem knows_of_not_holds {p : QueuePlace α} (h : p.holds = false)
    (q : List α) : p.Knows q := by
  cases p with
  | deqPop => cases h
  | deqWait => cases h
  | _ => trivial

theorem ne_asleep_of_holds {p : QueuePlace α} (h : p.holds = true) :
    p ≠ asleep := by
  rintro rfl
  cases h

end QueuePlace

namespace BlockingQueue

open QueuePlace

variable {α θ : Type*} [DecidableEq θ] {x x' : BlockingQueue α θ} {t u : θ}
  {p : QueuePlace α}

/-- The invariant.  While somebody sleeps, the threads account for `spare` more
elements than there are. -/
structure SoundBy (spare : Nat) (x : BlockingQueue α θ) : Prop where
  fifo : x.pushed = x.popped ++ x.q
  mutex : ∀ u, (x.place u).holds = true ↔ x.m = some u
  knows : ∀ u, (x.place u).Knows x.q
  asleep : ∀ u, u ∈ x.cond ↔ x.place u = .asleep
  nodup : x.cond.Nodup
  served : ∃ n, Tally serves x.place n ∧
    (x.cond ≠ [] → x.q.length + spare ≤ n)

abbrev Sound (x : BlockingQueue α θ) : Prop := SoundBy 0 x

omit [DecidableEq θ] in
theorem sound_fresh : Sound (fresh : BlockingQueue α θ) where
  fifo := rfl
  mutex := by simp [fresh, holds]
  knows _ := trivial
  asleep := by simp [fresh]
  nodup := List.nodup_nil
  served := ⟨0, tally_zero fun _ => rfl, by simp [fresh]⟩

/-- One thread moves to `p`; the fields say what has to be checked of the new
state. -/
structure Moves (spare spare' : Nat) (x x' : BlockingQueue α θ) (t : θ)
    (p : QueuePlace α) : Prop where
  place : x'.place = Function.update x.place t p
  fifo : x'.pushed = x'.popped ++ x'.q
  mine : p.holds = true ↔ x'.m = some t
  others : ∀ u, u ≠ t → (x'.m = some u ↔ x.m = some u)
  learns : p.Knows x'.q
  knows : ∀ u, u ≠ t → (x.place u).Knows x'.q
  rests : t ∈ x'.cond ↔ p = .asleep
  sleepers : ∀ u, u ≠ t → (u ∈ x'.cond ↔ u ∈ x.cond)
  nodup : x'.cond.Nodup
  served : ∀ n m, m + (x.place t).serves = n + p.serves →
    (x.cond ≠ [] → x.q.length + spare ≤ n) →
      x'.cond ≠ [] → x'.q.length + spare' ≤ m

theorem SoundBy.moves {spare spare' : Nat} (h : SoundBy spare x)
    (hx : Moves spare spare' x x' t p) : SoundBy spare' x' where
  fifo := hx.fifo
  mutex u := by
    rw [hx.place]
    by_cases hu : u = t
    · subst hu
      rw [Function.update_self]
      exact hx.mine
    · rw [Function.update_of_ne hu, hx.others u hu]
      exact h.mutex u
  knows u := by
    rw [hx.place]
    by_cases hu : u = t
    · subst hu
      rw [Function.update_self]
      exact hx.learns
    · rw [Function.update_of_ne hu]
      exact hx.knows u hu
  asleep u := by
    rw [hx.place]
    by_cases hu : u = t
    · subst hu
      rw [Function.update_self]
      exact hx.rests
    · rw [Function.update_of_ne hu, hx.sleepers u hu]
      exact h.asleep u
  nodup := hx.nodup
  served := by
    obtain ⟨n, htally, hle⟩ := h.served
    obtain ⟨m, htally', hm⟩ := htally.update t p
    exact ⟨m, hx.place ▸ htally', hx.served n m hm hle⟩

omit [DecidableEq θ] in
theorem SoundBy.rests {spare : Nat} (h : SoundBy spare x)
    (ht : x.place t ≠ .asleep) (hp : p ≠ .asleep) :
    t ∈ x.cond ↔ p = .asleep := by
  rw [h.asleep t]
  constructor
  · intro hsleep
    exact absurd hsleep ht
  · intro hsleep
    exact absurd hsleep hp

omit [DecidableEq θ] in
theorem Sound.others_know (h : Sound x) (ht : (x.place t).holds = true)
    (q : List α) (u : θ) (hu : u ≠ t) : (x.place u).Knows q := by
  apply knows_of_not_holds
  rw [Bool.eq_false_iff]
  intro hholds
  have hm := (h.mutex t).mp ht
  rw [(h.mutex u).mp hholds] at hm
  exact hu (Option.some.inj hm)

omit [DecidableEq θ] in
/-- The elements grow by no more than what the thread accounts for. -/
theorem served_of_le {spare spare' : Nat} (hcond : x'.cond ≠ [] → x.cond ≠ [])
    (hle : x'.q.length + spare' + (x.place t).serves ≤
      x.q.length + spare + p.serves) (n m : Nat)
    (hm : m + (x.place t).serves = n + p.serves)
    (h : x.cond ≠ [] → x.q.length + spare ≤ n) (hne : x'.cond ≠ []) :
    x'.q.length + spare' ≤ m := by
  have := h (hcond hne)
  omega

theorem SoundBy.goto {spare : Nat} (h : SoundBy spare x)
    (hasleep : x.place t ≠ .asleep) (hp : p ≠ .asleep)
    (hholds : p.holds = (x.place t).holds) (hlearns : p.Knows x.q)
    (hserves : x.q = [] ∨ (x.place t).serves ≤ p.serves + spare) :
    Sound (x.goto t p) := by
  refine h.moves (t := t) (p := p)
    { place := rfl
      fifo := h.fifo
      mine := by
        rw [hholds]
        exact h.mutex t
      others := fun _ _ => .rfl
      learns := hlearns
      knows := fun u _ => h.knows u
      rests := h.rests hasleep hp
      sleepers := fun _ _ => .rfl
      nodup := h.nodup
      served := ?_ }
  rcases hserves with hq | hserves
  · intro n m _ _ _
    change x.q.length ≤ m
    rw [hq]
    exact Nat.zero_le m
  · apply served_of_le id
    change x.q.length + _ ≤ _
    omega

theorem Sound.call (h : Sound x) (hp : p.holds = false) (hawake : p ≠ .asleep)
    (hcall : x.call t p = some x') : Sound x' := by
  unfold BlockingQueue.call at hcall
  split at hcall
  · rename_i hplace
    cases hcall
    refine h.goto (by simp [hplace]) hawake (by rw [hplace, hp]; rfl)
      (knows_of_not_holds hp _) (.inr ?_)
    rw [hplace]
    exact Nat.zero_le _
  · cases hcall

theorem Sound.lock (h : Sound x) (hasleep : x.place t ≠ .asleep)
    (hp : p.holds = true) (hlearns : p.Knows x.q)
    (hserves : (x.place t).serves ≤ p.serves)
    (hlock : x.lock t p = some x') : Sound x' := by
  unfold BlockingQueue.lock at hlock
  split at hlock
  · rename_i hm
    cases hlock
    refine h.moves (t := t) (p := p)
      { place := rfl
        fifo := h.fifo
        mine := by simp [BlockingQueue.goto, hp]
        others := ?_
        learns := hlearns
        knows := fun u _ => h.knows u
        rests := h.rests hasleep (ne_asleep_of_holds hp)
        sleepers := fun _ _ => .rfl
        nodup := h.nodup
        served := served_of_le id (Nat.add_le_add_left hserves _) }
    intro u hu
    simp [BlockingQueue.goto, hm, hu.symm]
  · cases hlock

theorem Sound.unlock (h : Sound x) (ht : (x.place t).holds = true)
    (hp : p.holds = false) (hawake : p ≠ .asleep)
    (hserves : (x.place t).serves ≤ p.serves) : Sound (x.unlock t p) := by
  have hm := (h.mutex t).mp ht
  refine h.moves (t := t) (p := p)
    { place := rfl
      fifo := h.fifo
      mine := by simp [BlockingQueue.unlock, BlockingQueue.goto, hp]
      others := ?_
      learns := knows_of_not_holds hp _
      knows := fun u _ => h.knows u
      rests := h.rests (ne_asleep_of_holds ht) hawake
      sleepers := fun _ _ => .rfl
      nodup := h.nodup
      served := served_of_le id (Nat.add_le_add_left hserves _) }
  intro u hu
  simp [BlockingQueue.unlock, BlockingQueue.goto, hm, hu.symm]

/-- `u` is woken, by a notification or spuriously; it accounts for an element
from then on. -/
theorem Sound.wake (h : Sound x) (hu : u ∈ x.cond) :
    SoundBy 1 (x.wake u) := by
  have hplace := (h.asleep u).mp hu
  refine h.moves (t := u) (p := .relock)
    { place := rfl
      fifo := h.fifo
      mine := ?_
      others := fun _ _ => .rfl
      learns := trivial
      knows := fun v _ => h.knows v
      rests := by
        simp [BlockingQueue.wake, BlockingQueue.goto, h.nodup.mem_erase_iff]
      sleepers := fun v hv => by
        simp [BlockingQueue.wake, BlockingQueue.goto, h.nodup.mem_erase_iff, hv]
      nodup := h.nodup.erase u
      served := served_of_le (fun _ => List.ne_nil_of_mem hu) ?_ }
  · have := h.mutex u
    rw [hplace] at this
    exact this
  · rw [hplace]
    exact le_rfl

theorem Sound.edit {q' pushed' popped' : List α} (h : Sound x)
    (ht : (x.place t).holds = true) (hp : p.holds = true)
    (hlearns : p.Knows q') (hfifo : pushed' = popped' ++ q')
    (hserves : q'.length + (x.place t).serves ≤ x.q.length + p.serves) :
    Sound ({ x with q := q', pushed := pushed', popped := popped' }.goto t p) :=
  h.moves (t := t) (p := p)
    { place := rfl
      fifo := hfifo
      mine := ⟨fun _ => (h.mutex t).mp ht, fun _ => hp⟩
      others := fun _ _ => .rfl
      learns := hlearns
      knows := h.others_know ht _
      rests := h.rests (ne_asleep_of_holds ht) (ne_asleep_of_holds hp)
      sleepers := fun _ _ => .rfl
      nodup := h.nodup
      served := served_of_le id hserves }

theorem Sound.push {e : α} (h : Sound x) (hplace : x.place t = .enqPush e) :
    Sound ({ x with q := x.q ++ [e], pushed := x.pushed ++ [e] }.goto t
      .enqUnlock) := by
  apply h.edit (p := .enqUnlock) (by rw [hplace]; rfl) rfl trivial
  · rw [h.fifo, List.append_assoc]
  · rw [hplace, List.length_append]
    exact le_rfl

theorem Sound.pop {e : α} {rest : List α} (h : Sound x)
    (hplace : x.place t = .deqPop) (hq : x.q = e :: rest) :
    Sound ({ x with q := rest, popped := x.popped ++ [e] }.goto t
      (.deqUnlock e)) := by
  apply h.edit (p := .deqUnlock e) (by rw [hplace]; rfl) rfl trivial
  · rw [h.fifo, hq, List.append_assoc]
    rfl
  · rw [hplace, hq]
    exact le_rfl

theorem Sound.sleep (h : Sound x) (hplace : x.place t = .deqWait) :
    Sound ({ x with cond := t :: x.cond }.unlock t .asleep) := by
  have hholds : (x.place t).holds = true := by rw [hplace]; rfl
  have hm := (h.mutex t).mp hholds
  have hq : x.q = [] := by
    have hknows := h.knows t
    rw [hplace] at hknows
    exact hknows
  have hout : t ∉ x.cond := by simp [h.asleep t, hplace]
  refine h.moves (t := t) (p := .asleep)
    { place := rfl
      fifo := h.fifo
      mine := by simp [BlockingQueue.unlock, BlockingQueue.goto, holds]
      others := ?_
      learns := trivial
      knows := fun u _ => h.knows u
      rests := by simp [BlockingQueue.unlock, BlockingQueue.goto]
      sleepers := fun u hu => by
        simp [BlockingQueue.unlock, BlockingQueue.goto, hu]
      nodup := List.nodup_cons.mpr ⟨hout, h.nodup⟩
      served := ?_ }
  · intro u hu
    simp [BlockingQueue.unlock, BlockingQueue.goto, hm, hu.symm]
  · intro n m _ _ _
    change x.q.length ≤ m
    rw [hq]
    exact Nat.zero_le m

theorem Sound.test (h : Sound x) (hplace : x.place t = .deqTest) :
    Sound (x.goto t (if x.q.isEmpty then .deqWait else .deqPop)) := by
  cases hq : x.q with
  | nil =>
      exact h.goto (by simp [hplace]) (by simp) (by rw [hplace]; rfl) hq (.inl hq)
  | cons e rest =>
      refine h.goto (by simp [hplace]) (by simp) (by rw [hplace]; rfl) ?_ (.inr ?_)
      · change x.q ≠ []
        simp [hq]
      · rw [hplace]
        exact le_rfl

theorem Sound.thread (h : Sound x) (hstep : x.thread t = some x') :
    Sound x' := by
  unfold BlockingQueue.thread at hstep
  cases hp : x.place t with
  | outside | enqNotify | asleep =>
      simp only [hp] at hstep
      cases hstep
  | enqLock e =>
      simp only [hp] at hstep
      exact h.lock (p := .enqPush e) (by simp [hp]) rfl trivial (by rw [hp]; rfl) hstep
  | enqPush e =>
      simp only [hp] at hstep
      cases hstep
      exact h.push hp
  | enqUnlock =>
      simp only [hp] at hstep
      cases hstep
      exact h.unlock (by rw [hp]; rfl) rfl (by simp) (by rw [hp]; rfl)
  | deqLock | relock =>
      simp only [hp] at hstep
      exact h.lock (p := .deqTest) (by simp [hp]) rfl trivial (by rw [hp]; rfl) hstep
  | deqTest =>
      simp only [hp] at hstep
      cases hstep
      exact h.test hp
  | deqWait =>
      simp only [hp] at hstep
      cases hstep
      exact h.sleep hp
  | deqPop =>
      simp only [hp] at hstep
      cases hq : x.q with
      | nil =>
          simp only [hq] at hstep
          cases hstep
      | cons e rest =>
          simp only [hq] at hstep
          cases hstep
          exact h.pop hp hq
  | deqUnlock e =>
      simp only [hp] at hstep
      cases hstep
      exact h.unlock (by rw [hp]; rfl) rfl (by simp) (by rw [hp]; rfl)
  | isEmptyLock =>
      simp only [hp] at hstep
      exact h.lock (p := .isEmptyRead) (by simp [hp]) rfl trivial (by rw [hp]; rfl) hstep
  | isEmptyRead =>
      simp only [hp] at hstep
      cases hstep
      exact h.goto (by simp [hp]) (by simp) (by rw [hp]; rfl) trivial
        (.inr (by rw [hp]; rfl))
  | isEmptyUnlock b =>
      simp only [hp] at hstep
      cases hstep
      exact h.unlock (by rw [hp]; rfl) rfl (by simp) (by rw [hp]; rfl)

omit [DecidableEq θ] in
theorem SoundBy.sound {spare : Nat} (h : SoundBy spare x) : Sound x := by
  obtain ⟨n, htally, hle⟩ := h.served
  exact ⟨h.fifo, h.mutex, h.knows, h.asleep, h.nodup, n, htally,
    fun hcond => (Nat.le_add_right _ spare).trans (hle hcond)⟩

theorem Sound.notify (h : Sound x) (ht : x.place t = .enqNotify)
    (hu : u ∈ x.cond) : Sound ((x.wake u).goto t .outside) := by
  have hne : t ≠ u := by
    rintro rfl
    rw [h.asleep, ht] at hu
    cases hu
  have hplace : (x.wake u).place t = .enqNotify := by
    rw [← ht]
    exact Function.update_of_ne hne ..
  refine (h.wake hu).goto (by simp [hplace]) (by simp) (by rw [hplace]; rfl)
    trivial (.inr ?_)
  rw [hplace]
  exact le_rfl

theorem Sound.notifyNobody (h : Sound x) (ht : x.place t = .enqNotify)
    (hcond : x.cond = []) : Sound (x.goto t .outside) :=
  h.moves (p := .outside)
    { place := rfl
      fifo := h.fifo
      mine := by
        have := h.mutex t
        rwa [ht] at this
      others := fun _ _ => .rfl
      learns := trivial
      knows := fun u _ => h.knows u
      rests := h.rests (by simp [ht]) (by simp)
      sleepers := fun _ _ => .rfl
      nodup := h.nodup
      served := fun _ _ _ _ hne => absurd hcond hne }

theorem Sound.step {a : QueueAct α θ} (h : Sound x) (hstep : step x a = some x') :
    Sound x' := by
  cases a with
  | enq t e => exact h.call rfl (by simp) hstep
  | deq t => exact h.call rfl (by simp) hstep
  | isEmpty t => exact h.call rfl (by simp) hstep
  | thread t => exact h.thread hstep
  | notify t u =>
      simp only [BlockingQueue.step] at hstep
      repeat' split at hstep
      all_goals cases hstep
      exact h.notify ‹_› ‹_›
  | notifyNobody t =>
      simp only [BlockingQueue.step] at hstep
      repeat' split at hstep
      all_goals cases hstep
      exact h.notifyNobody ‹_› (List.isEmpty_iff.mp ‹_›)
  | spurious u =>
      simp only [BlockingQueue.step] at hstep
      split at hstep
      · cases hstep
        exact (h.wake ‹_›).sound
      · cases hstep

theorem sound_reachable (h : Reachable x) : Sound x :=
  h.invariant sound_fresh fun _ _ _ _ ih _ hstep => ih.step hstep

/-- Besides a thread that is about to pop, some thread accounts for an
element. -/
theorem Sound.exists_serving (h : Sound x) (ht : x.place t = .asleep)
    (hq : x.q ≠ []) (hpop : ∀ u, x.place u = .deqPop → 2 ≤ x.q.length) :
    ∃ u, x.place u ≠ .deqPop ∧ 0 < (x.place u).serves := by
  obtain ⟨n, htally, hle⟩ := h.served
  have hn := hle (List.ne_nil_of_mem ((h.asleep t).mpr ht))
  have hlen := List.length_pos_iff.mpr hq
  by_cases hp : ∃ u, x.place u = .deqPop
  · obtain ⟨u, hu⟩ := hp
    have htwo := hpop u hu
    obtain ⟨m, hrest, hm⟩ := htally.update u .outside
    have hone : (x.place u).serves = 1 := by rw [hu]; rfl
    have hzero : (outside : QueuePlace α).serves = 0 := rfl
    obtain ⟨v, hv⟩ := hrest.exists_pos (by omega)
    have hvu : v ≠ u := by
      rintro rfl
      rw [Function.update_self] at hv
      cases hv
    rw [Function.update_of_ne hvu] at hv
    refine ⟨v, fun hvp => hvu ?_, hv⟩
    -- only one of them can be inside the critical section
    have hum := (h.mutex u).mp (by rw [hu]; rfl)
    have hvm := (h.mutex v).mp (by rw [hvp]; rfl)
    rw [hum] at hvm
    exact (Option.some.inj hvm).symm
  · obtain ⟨v, hv⟩ := htally.exists_pos (by omega)
    exact ⟨v, fun hvp => hp ⟨v, hvp⟩, hv⟩

/-- What is dequeued is a prefix of what was enqueued, a pop finds an element,
and while an element is left for others no consumer sleeps unless a test or a
notification is on its way. -/
theorem fifo_and_awake (h : Reachable x) :
    x.popped <+: x.pushed ∧ x.pushed = x.popped ++ x.q ∧
      (∀ t, x.place t = .deqPop → x.q ≠ []) ∧
      ∀ t, x.place t = .asleep → x.q ≠ [] →
        (∀ u, x.place u = .deqPop → 2 ≤ x.q.length) →
          ∃ u, (x.place u).headsForTest = true ∨
            (x.place u).owesNotify = true := by
  have hsound := sound_reachable h
  refine ⟨⟨x.q, hsound.fifo.symm⟩, hsound.fifo, fun t ht => ?_,
    fun t ht hq hpop => ?_⟩
  · have hknows := hsound.knows t
    rw [ht] at hknows
    exact hknows
  · obtain ⟨u, hne, hserves⟩ := hsound.exists_serving ht hq hpop
    refine ⟨u, ?_⟩
    cases hu : x.place u with
    | deqPop => exact absurd hu hne
    | deqLock | deqTest | relock => exact .inl rfl
    | enqUnlock | enqNotify => exact .inr rfl
    | _ =>
        rw [hu] at hserves
        cases hserves

def oneForTwo : BlockingQueue Nat (Fin 3) :=
  (run step fresh ([.deq 0] ++ List.replicate 3 (.thread 0) ++ [.deq 1] ++
    List.replicate 3 (.thread 1) ++ [.enq 2 7] ++
    List.replicate 3 (.thread 2))).get (by decide)

theorem fifo_and_awake_oneForTwo :
    oneForTwo.place 0 = .asleep ∧ oneForTwo.q = [7] ∧
      oneForTwo.popped <+: oneForTwo.pushed ∧
      ∃ u, (oneForTwo.place u).headsForTest = true ∨
        (oneForTwo.place u).owesNotify = true :=
  have h := fifo_and_awake (x := oneForTwo) (reachable_get _)
  ⟨by decide, by decide, h.1, h.2.2.2 0 (by decide) (by decide) (by decide)⟩

def oneTaken : BlockingQueue Nat (Fin 3) :=
  (run step oneForTwo ([.notify 2 1] ++ List.replicate 2 (.thread 1))).get
    (by decide)

/-- Between a successful test and the pop the queue is not empty, the other
consumer sleeps, and nobody tests or notifies any more. -/
theorem asleep_before_pop :
    ¬ ∀ x : BlockingQueue Nat (Fin 3), Reachable x →
      ∀ t, x.place t = .asleep → x.q ≠ [] →
        ∃ u, (x.place u).headsForTest = true ∨
          (x.place u).willNotify = true := by
  intro h
  have hpushed : Reachable oneForTwo := reachable_get _
  have htaken : Foundation.Reachable step oneForTwo oneTaken := reachable_get _
  exact absurd (h oneTaken (hpushed.trans htaken) 0 (by decide) (by decide))
    (by decide)

section Fifo

/-- The queue as the other modules see it. -/
inductive FifoOp (α : Type*) where
  | push (e : α)
  | pop

def fifoStep (l : List α) : FifoOp α → Option (List α)
  | .push e => some (l ++ [e])
  | .pop =>
      match l with
      | [] => none
      | _ :: rest => some rest

theorem thread_fifo (hstep : x.thread t = some x') :
    x'.q = x.q ∨ ∃ op, fifoStep x.q op = some x'.q := by
  unfold BlockingQueue.thread BlockingQueue.lock at hstep
  split at hstep
  all_goals repeat' split at hstep
  all_goals cases hstep
  any_goals exact .inl rfl
  · exact .inr ⟨.push _, rfl⟩
  · exact .inr ⟨.pop, by simp [fifoStep, *]; rfl⟩

theorem step_fifo {a : QueueAct α θ} (hstep : step x a = some x') :
    x'.q = x.q ∨ ∃ op, fifoStep x.q op = some x'.q := by
  cases a with
  | thread t => exact thread_fifo hstep
  | enq t e | deq t | isEmpty t =>
      simp only [BlockingQueue.step, BlockingQueue.call] at hstep
      split at hstep
      all_goals cases hstep
      exact .inl rfl
  | notify t u | notifyNobody t | spurious u =>
      simp only [BlockingQueue.step] at hstep
      repeat' split at hstep
      all_goals cases hstep
      exact .inl rfl

/-- The operations implement a queue that is pushed to and popped in single
steps. -/
theorem fifo_reachable (h : Reachable x) :
    Foundation.Reachable fifoStep [] x.q := by
  have hsim : ∃ l, Foundation.Reachable fifoStep [] l ∧ x.q = l := by
    apply Reaches.simulates (R := fun x l => x.q = l) h rfl
    rintro x a x' _ - rfl - hstep
    rcases step_fifo hstep with hq | ⟨op, hop⟩
    · exact .inl hq
    · exact .inr ⟨op, x'.q, trivial, hop, rfl⟩
  obtain ⟨l, hl, rfl⟩ := hsim
  exact hl

theorem run_pushes (es : List α) :
    ∀ l : List α, run fifoStep l (es.map .push) = some (l ++ es) := by
  induction es with
  | nil =>
      intro l
      rw [List.append_nil]
      rfl
  | cons e es ih =>
      intro l
      have h := ih (l ++ [e])
      rw [List.append_assoc] at h
      exact h

theorem fifo_enqAll (s : Session) (es : List Event) :
    run fifoStep s.eq (es.map .push) = some (s.enqAll es).eq :=
  run_pushes es s.eq

end Fifo

end BlockingQueue

end CntPeer
