import Mathlib.Data.List.Nodup
import Mathlib.Order.WellFounded
import Mathlib.Order.WithBot
import CntPeer.Foundation.Threads

/-!
# Lock order

Threads that take mutexes in ascending rank do not deadlock.  The end of a
thread has a rank below all that the thread waits for, so it can be waited for
like a mutex; a thread that has handed over its item waits for nothing more,
and whoever takes the item may wait for its end at any rank.
-/

namespace CntPeer.Foundation

structure LockOrder (θ ℓ χ R : Type) where
  rank : ℓ → R
  endRank : θ → R
  /-- the only thread that hands over the item, as the last thing it does -/
  retiree : χ → θ

namespace LockOrder

variable {θ ℓ χ R : Type} [Preorder R]

def Below (o : LockOrder θ ℓ χ R) (H : List ℓ) (r : R) : Prop :=
  ∀ h ∈ H, o.rank h < r

theorem below_nil {o : LockOrder θ ℓ χ R} {r : R} : o.Below [] r := by
  intro h hh
  cases hh

theorem Below.cons {o : LockOrder θ ℓ χ R} {H : List ℓ} {l : ℓ} {r : R}
    (hl : o.rank l < r) (h : o.Below H r) : o.Below (l :: H) r := by
  intro h' hh'
  rcases List.mem_cons.mp hh' with rfl | hh'
  · exact hl
  · exact h h' hh'

/--
The thread `t` respects the order from a statement list entered with the
mutexes `H`, the last one taken first, to its end.  `retired` holds of threads
that wait for nothing more; the Boolean tells whether `t` itself has retired.
-/
inductive Follows (o : LockOrder θ ℓ χ R) (t : θ) :
    (θ → Prop) → List ℓ → Bool → Body θ ℓ χ → List ℓ → Bool → Prop
  | nil {retired : θ → Prop} {H : List ℓ} {b : Bool} :
      Follows o t retired H b [] H b
  | lock {retired : θ → Prop} {H H' : List ℓ} {b' : Bool} {k : Body θ ℓ χ}
      {mode : Mode} {l : ℓ} (ascends : o.Below H (o.rank l))
      (above : o.endRank t < o.rank l)
      (next : Follows o t retired (l :: H) false k H' b') :
      Follows o t retired H false (.lock mode l :: k) H' b'
  | unlock {retired : θ → Prop} {H H' : List ℓ} {b b' : Bool}
      {k : Body θ ℓ χ} {l : ℓ} (next : Follows o t retired H b k H' b') :
      Follows o t retired (l :: H) b (.unlock l :: k) H' b'
  | join {retired : θ → Prop} {H H' : List ℓ} {b' : Bool} {k : Body θ ℓ χ}
      {u : θ} (waits : retired u ∨
        o.Below H (o.endRank u) ∧ o.endRank t < o.endRank u)
      (next : Follows o t retired H false k H' b') :
      Follows o t retired H false (.join u :: k) H' b'
  | spawn {retired : θ → Prop} {H H' : List ℓ} {b b' : Bool} {k : Body θ ℓ χ}
      {u : θ} (next : Follows o t retired H b k H' b') :
      Follows o t retired H b (.spawn u :: k) H' b'
  | spawnNew {retired : θ → Prop} {H H' : List ℓ} {b b' : Bool}
      {k : Body θ ℓ χ} {f : Nat → θ} (next : Follows o t retired H b k H' b') :
      Follows o t retired H b (.spawnNew f :: k) H' b'
  | push {retired : θ → Prop} {H H' : List ℓ} {b' : Bool} {k : Body θ ℓ χ}
      {a : χ} (own : o.retiree a = t)
      (next : Follows o t retired H true k H' b') :
      Follows o t retired H false (.push a :: k) H' b'
  | pop {retired : θ → Prop} {H H₁ H' : List ℓ} {b₁ b' : Bool}
      {k : Body θ ℓ χ} {f : χ → Body θ ℓ χ}
      (taken : ∀ a, Follows o t (fun u => retired u ∨ u = o.retiree a)
        H false (f a) H₁ b₁)
      (next : Follows o t retired H₁ b₁ k H' b') :
      Follows o t retired H false (.pop f :: k) H' b'
  | whileEmpty {retired : θ → Prop} {H H' : List ℓ} {b b' : Bool}
      {c k : Body θ ℓ χ} (again : Follows o t retired H b c H b)
      (next : Follows o t retired H b k H' b') :
      Follows o t retired H b (.whileEmpty c :: k) H' b'
  | choice {retired : θ → Prop} {H H₁ H' : List ℓ} {b b₁ b' : Bool}
      {k : Body θ ℓ χ} {alts : List (Body θ ℓ χ)}
      (each : ∀ c ∈ alts, Follows o t retired H b c H₁ b₁)
      (next : Follows o t retired H₁ b₁ k H' b') :
      Follows o t retired H b (.choice alts :: k) H' b'
  | any {retired : θ → Prop} {H H₁ H' : List ℓ} {b b₁ b' : Bool}
      {k : Body θ ℓ χ} {f : Nat → Body θ ℓ χ}
      (each : ∀ n, Follows o t retired H b (f n) H₁ b₁)
      (next : Follows o t retired H₁ b₁ k H' b') :
      Follows o t retired H b (.any f :: k) H' b'
  | loop {retired : θ → Prop} {H H' : List ℓ} {b b' : Bool}
      {c k : Body θ ℓ χ} (again : Follows o t retired H b c H b)
      (next : Follows o t retired H b k H' b') :
      Follows o t retired H b (.loop c :: k) H' b'
  | forever {retired : θ → Prop} {H H' : List ℓ} {b b' : Bool}
      {c k : Body θ ℓ χ} (again : Follows o t retired H b c H b) :
      Follows o t retired H b (.forever c :: k) H' b'
  | stop {retired : θ → Prop} {H H' : List ℓ} {b b' : Bool}
      {k : Body θ ℓ χ} : Follows o t retired H b (.stop :: k) H' b'

variable {o : LockOrder θ ℓ χ R} {t : θ} {retired retired' : θ → Prop}
  {H H₁ H' : List ℓ} {b b₁ b' : Bool} {c k : Body θ ℓ χ}

theorem Follows.append (h : o.Follows t retired H b c H₁ b₁)
    (hk : o.Follows t retired H₁ b₁ k H' b') :
    o.Follows t retired H b (c ++ k) H' b' := by
  induction h with
  | nil => exact hk
  | lock ascends above _ ih => exact .lock ascends above (ih hk)
  | unlock _ ih => exact .unlock (ih hk)
  | join waits _ ih => exact .join waits (ih hk)
  | spawn _ ih => exact .spawn (ih hk)
  | spawnNew _ ih => exact .spawnNew (ih hk)
  | push own _ ih => exact .push own (ih hk)
  | pop taken _ _ ih => exact .pop taken (ih hk)
  | whileEmpty again _ _ ih => exact .whileEmpty again (ih hk)
  | choice each _ _ ih => exact .choice each (ih hk)
  | any each _ _ ih => exact .any each (ih hk)
  | loop again _ _ ih => exact .loop again (ih hk)
  | forever again => exact .forever again
  | stop => exact .stop

theorem Follows.mono (h : o.Follows t retired H b c H₁ b₁)
    (hretired : ∀ u, retired u → retired' u) :
    o.Follows t retired' H b c H₁ b₁ := by
  induction h generalizing retired' with
  | nil => exact .nil
  | lock ascends above _ ih => exact .lock ascends above (ih hretired)
  | unlock _ ih => exact .unlock (ih hretired)
  | join waits _ ih =>
      exact .join (waits.imp_left (hretired _)) (ih hretired)
  | spawn _ ih => exact .spawn (ih hretired)
  | spawnNew _ ih => exact .spawnNew (ih hretired)
  | push own _ ih => exact .push own (ih hretired)
  | pop taken _ ihtaken ih =>
      exact .pop (fun a => ihtaken a fun u => Or.imp_left (hretired u))
        (ih hretired)
  | whileEmpty _ _ ihagain ih =>
      exact .whileEmpty (ihagain hretired) (ih hretired)
  | choice _ _ iheach ih =>
      exact .choice (fun c hc => iheach c hc hretired) (ih hretired)
  | any _ _ iheach ih => exact .any (fun n => iheach n hretired) (ih hretired)
  | loop _ _ ihagain ih => exact .loop (ihagain hretired) (ih hretired)
  | forever _ ihagain => exact .forever (ihagain hretired)
  | stop => exact .stop

section Rules

def Keeps (o : LockOrder θ ℓ χ R) (t : θ) (retired : θ → Prop) (H : List ℓ)
    (c : Body θ ℓ χ) : Prop :=
  o.Follows t retired H false c H false

theorem Keeps.nil : o.Keeps t retired H [] := Follows.nil

theorem Keeps.append (h : o.Keeps t retired H c) (hk : o.Keeps t retired H k) :
    o.Keeps t retired H (c ++ k) :=
  Follows.append h hk

theorem Keeps.choice {alts : List (Body θ ℓ χ)}
    (h : ∀ c ∈ alts, o.Keeps t retired H c) :
    o.Keeps t retired H [.choice alts] :=
  Follows.choice h .nil

theorem Keeps.any {f : Nat → Body θ ℓ χ} (h : ∀ n, o.Keeps t retired H (f n)) :
    o.Keeps t retired H [.any f] :=
  Follows.any h .nil

theorem Keeps.loop (h : o.Keeps t retired H c) :
    o.Keeps t retired H [.loop c] :=
  Follows.loop h .nil

theorem Keeps.forever (h : o.Keeps t retired H c) :
    o.Keeps t retired H [.forever c] :=
  Follows.forever h

theorem Keeps.stop : o.Keeps t retired H [.stop] := Follows.stop

theorem Keeps.spawn {u : θ} : o.Keeps t retired H [.spawn u] :=
  Follows.spawn .nil

theorem Keeps.spawnNew {f : Nat → θ} : o.Keeps t retired H [.spawnNew f] :=
  Follows.spawnNew .nil

theorem Keeps.join {u : θ} (h : retired u ∨
    o.Below H (o.endRank u) ∧ o.endRank t < o.endRank u) :
    o.Keeps t retired H [.join u] :=
  Follows.join h .nil

theorem Follows.lockGuard {mode : Mode} {l : ℓ} (ascends : o.Below H (o.rank l))
    (above : o.endRank t < o.rank l)
    (h : o.Follows t retired (l :: H) false c (l :: H) b) :
    o.Follows t retired H false (.lock mode l :: (c ++ [.unlock l])) H b :=
  .lock ascends above (h.append (.unlock .nil))

theorem Keeps.wait {mode : Mode} {l : ℓ} (ascends : o.Below H (o.rank l))
    (above : o.endRank t < o.rank l) :
    o.Keeps t retired (l :: H) [.unlock l, .lock mode l] :=
  Follows.unlock (.lock ascends above .nil)

end Rules

def Ends (o : LockOrder θ ℓ χ R) (t : θ) (retired : θ → Prop) (H : List ℓ)
    (b : Bool) (k : Body θ ℓ χ) : Prop :=
  ∃ b', o.Follows t retired H b k [] b'

theorem Ends.mono (h : o.Ends t retired H b k)
    (hretired : ∀ u, retired u → retired' u) : o.Ends t retired' H b k := by
  obtain ⟨b', hfollows⟩ := h
  exact ⟨b', hfollows.mono hretired⟩

section Run

variable [DecidableEq θ] [DecidableEq ℓ] {body : θ → Body θ ℓ χ}
  {x x' : Threads θ ℓ χ} {held : θ → List ℓ} {ret : θ → Bool} {u : θ} {l : ℓ}

/-- Every thread respects the order from where it stands, with the mutexes
`held`; the threads of `ret` have retired. -/
structure Obeys (o : LockOrder θ ℓ χ R) (x : Threads θ ℓ χ)
    (held : θ → List ℓ) (ret : θ → Bool) : Prop where
  follows : ∀ t k, x.rest t = some k →
    o.Ends t (fun u => ret u = true) (held t) (ret t) k
  unstarted : ∀ t, x.rest t = none → held t = [] ∧ ret t = false
  owns : ∀ l t, x.Owns t l ↔ l ∈ held t
  nodup : ∀ t, (held t).Nodup
  handed : ∀ a ∈ x.queue, ret (o.retiree a) = true

theorem update_of_true (hb : ret t = true → b = true) (hu : ret u = true) :
    Function.update ret t b u = true := by
  by_cases hut : u = t
  · subst hut
    rw [Function.update_self]
    exact hb hu
  · rw [Function.update_of_ne hut]
    exact hu

omit [DecidableEq ℓ] in
theorem Obeys.advance (h : o.Obeys x held ret) (H' : List ℓ) (b : Bool)
    (hrest : x'.rest = Function.update x.rest t (some k))
    (hret : ret t = true → b = true)
    (hk : o.Ends t (fun u => Function.update ret t b u = true) H' b k)
    (howns : ∀ l u, x'.Owns u l ↔ l ∈ Function.update held t H' u)
    (hnodup : H'.Nodup)
    (hhanded : ∀ a ∈ x'.queue, Function.update ret t b (o.retiree a) = true) :
    o.Obeys x' (Function.update held t H') (Function.update ret t b) where
  follows u k' hu := by
    rw [hrest] at hu
    by_cases hut : u = t
    · subst hut
      rw [Function.update_self] at hu ⊢
      rw [Function.update_self]
      cases hu
      exact hk
    · rw [Function.update_of_ne hut] at hu ⊢
      rw [Function.update_of_ne hut]
      exact (h.follows u k' hu).mono fun v hv => update_of_true hret hv
  unstarted u hu := by
    rw [hrest] at hu
    by_cases hut : u = t
    · subst hut
      rw [Function.update_self] at hu
      cases hu
    · rw [Function.update_of_ne hut] at hu ⊢
      rw [Function.update_of_ne hut]
      exact h.unstarted u hu
  owns := howns
  nodup u := by
    by_cases hut : u = t
    · subst hut
      rw [Function.update_self]
      exact hnodup
    · rw [Function.update_of_ne hut]
      exact h.nodup u
  handed := hhanded

omit [DecidableEq ℓ] in
theorem Obeys.goto (h : o.Obeys x held ret)
    (hrest : x'.rest = Function.update x.rest t (some k))
    (howners : x'.owners = x.owners) (hqueue : x'.queue ⊆ x.queue)
    (hk : o.Ends t (fun u => ret u = true) (held t) (ret t) k) :
    o.Obeys x' held ret := by
  have hheld := Function.update_eq_self t held
  have hretired := Function.update_eq_self t ret
  have hnext : o.Obeys x' (Function.update held t (held t))
      (Function.update ret t (ret t)) := by
    apply h.advance (held t) (ret t) hrest id
    · rwa [hretired]
    · intro l u
      rw [hheld, Threads.Owns, howners]
      exact h.owns l u
    · exact h.nodup t
    · rw [hretired]
      exact fun a ha => h.handed a (hqueue ha)
  rwa [hheld, hretired] at hnext

theorem Obeys.lock {mode : Mode} (h : o.Obeys x held ret)
    (ht : ret t = false) (hout : l ∉ held t)
    (hk : o.Ends t (fun u => ret u = true) (l :: held t) false k) :
    o.Obeys ((x.acquire t l mode).goto t k)
      (Function.update held t (l :: held t)) ret := by
  have hretired : Function.update ret t false = ret := by
    rw [← ht]
    exact Function.update_eq_self t ret
  have hnext : o.Obeys ((x.acquire t l mode).goto t k)
      (Function.update held t (l :: held t)) (Function.update ret t false) := by
    apply h.advance (l :: held t) false rfl
    · simp [ht]
    · rwa [hretired]
    · intro l' u
      change (x.acquire t l mode).Owns u l' ↔ _
      rw [Threads.owns_acquire, h.owns]
      by_cases hut : u = t
      · subst hut
        simp
      · simp [hut]
    · exact List.nodup_cons.mpr ⟨hout, h.nodup t⟩
    · rw [hretired]
      exact h.handed
  rwa [hretired] at hnext

theorem Obeys.unlock (h : o.Obeys x held ret) (ht : held t = l :: H)
    (hk : o.Ends t (fun u => ret u = true) H (ret t) k) :
    o.Obeys ((x.release t l).goto t k) (Function.update held t H) ret := by
  have hretired := Function.update_eq_self t ret
  have hnodup := h.nodup t
  rw [ht] at hnodup
  obtain ⟨hout, hH⟩ := List.nodup_cons.mp hnodup
  have hnext : o.Obeys ((x.release t l).goto t k) (Function.update held t H)
      (Function.update ret t (ret t)) := by
    apply h.advance H (ret t) rfl id
    · rwa [hretired]
    · intro l' u
      change (x.release t l).Owns u l' ↔ _
      rw [Threads.owns_release, h.owns]
      by_cases hut : u = t
      · subst hut
        rw [Function.update_self, ht, List.mem_cons]
        constructor
        · rintro ⟨hne, rfl | hmem⟩
          · exact absurd ⟨rfl, rfl⟩ hne
          · exact hmem
        · intro hmem
          refine ⟨?_, .inr hmem⟩
          rintro ⟨-, rfl⟩
          exact hout hmem
      · simp [hut]
    · exact hH
    · rw [hretired]
      exact h.handed
  rwa [hretired] at hnext

omit [DecidableEq ℓ] in
theorem Obeys.push {a : χ} (h : o.Obeys x held ret) (ha : o.retiree a = t)
    (hk : o.Ends t (fun u => ret u = true) (held t) true k) :
    o.Obeys ({ x with queue := x.queue ++ [a] }.goto t k) held
      (Function.update ret t true) := by
  have hheld := Function.update_eq_self t held
  have hgrows : ∀ u, ret u = true → Function.update ret t true u = true :=
    fun u hu => update_of_true (fun _ => rfl) hu
  have hnext : o.Obeys ({ x with queue := x.queue ++ [a] }.goto t k)
      (Function.update held t (held t)) (Function.update ret t true) := by
    apply h.advance (held t) true rfl (fun _ => rfl)
    · exact hk.mono hgrows
    · rw [hheld]
      exact h.owns
    · exact h.nodup t
    · intro a' ha'
      rcases List.mem_append.mp ha' with ha' | ha'
      · exact hgrows _ (h.handed a' ha')
      · rw [List.mem_singleton.mp ha', ha]
        exact Function.update_self ..
  rwa [hheld] at hnext

omit [DecidableEq ℓ] in
theorem Obeys.start (h : o.Obeys x held ret)
    (hbody : ∀ u, o.Ends u (fun _ => False) [] false (body u))
    (hk : o.Ends t (fun u => ret u = true) (held t) (ret t) k)
    (hstart : x.start body t u k = some x') : o.Obeys x' held ret := by
  unfold Threads.start at hstart
  split at hstart
  · rename_i hu
    cases hstart
    obtain ⟨hheld, hret⟩ := h.unstarted u hu
    have hgone : o.Obeys (x.goto t k) held ret :=
      h.goto rfl rfl (List.Subset.refl _) hk
    refine hgone.goto rfl rfl (List.Subset.refl _) ?_
    rw [hheld, hret]
    exact (hbody u).mono fun _ => False.elim
  · cases hstart

omit [DecidableEq ℓ] in
theorem Obeys.pass (h : o.Obeys x held ret) (hH : held t = H) (hb : ret t = b)
    (hk : o.Ends t (fun u => ret u = true) H b k) :
    ∃ held' ret', o.Obeys (x.goto t k) held' ret' := by
  rw [← hH, ← hb] at hk
  exact ⟨held, ret, h.goto rfl rfl (List.Subset.refl _) hk⟩

theorem Obeys.exec {n : Nat} {s : Stmt θ ℓ χ} (h : o.Obeys x held ret)
    (hbody : ∀ u, o.Ends u (fun _ => False) [] false (body u))
    (hrest : x.rest t = some (s :: k))
    (hexec : Threads.exec body x t n k s = some x') :
    ∃ held' ret', o.Obeys x' held' ret' := by
  obtain ⟨b', hfollows⟩ := h.follows t _ hrest
  generalize hb : ret t = b at hfollows
  generalize hH : held t = H at hfollows
  cases hfollows with
  | lock ascends above next =>
      simp only [Threads.exec] at hexec
      split at hexec
      · cases hexec
        rw [← hH] at next ascends
        exact ⟨_, _, h.lock hb (fun hl => lt_irrefl _ (ascends _ hl)) ⟨_, next⟩⟩
      · cases hexec
  | unlock next =>
      cases hexec
      rw [← hb] at next
      exact ⟨_, _, h.unlock hH ⟨_, next⟩⟩
  | join waits next =>
      simp only [Threads.exec] at hexec
      split at hexec
      · cases hexec
      · cases hexec
        exact h.pass hH hb ⟨_, next⟩
  | spawn next =>
      rw [← hH, ← hb] at next
      exact ⟨_, _, h.start hbody ⟨_, next⟩ hexec⟩
  | spawnNew next =>
      rw [← hH, ← hb] at next
      exact ⟨_, _, h.start hbody ⟨_, next⟩ hexec⟩
  | push own next =>
      cases hexec
      rw [← hH] at next
      exact ⟨_, _, h.push own ⟨_, next⟩⟩
  | pop taken next =>
      simp only [Threads.exec] at hexec
      split at hexec
      · cases hexec
      · rename_i f a rest hqueue
        cases hexec
        have hretired := h.handed a (by rw [hqueue]; exact List.mem_cons_self)
        have hknown : ∀ u, ret u = true ∨ u = o.retiree a → ret u = true := by
          rintro u (hu | rfl)
          · exact hu
          · exact hretired
        have hall := ((taken a).mono hknown).append next
        rw [← hH, ← hb] at hall
        refine ⟨_, _, h.goto rfl rfl ?_ ⟨_, hall⟩⟩
        rw [hqueue]
        exact List.subset_cons_self a rest
  | whileEmpty again next =>
      cases hexec
      apply h.pass hH hb
      split
      · exact ⟨_, again.append (.whileEmpty again next)⟩
      · exact ⟨_, next⟩
  | choice each next =>
      obtain ⟨c, hc, rfl⟩ := Option.map_eq_some_iff.mp hexec
      exact h.pass hH hb ⟨_, (each c (List.mem_of_getElem? hc)).append next⟩
  | any each next =>
      cases hexec
      exact h.pass hH hb ⟨_, (each n).append next⟩
  | loop again next =>
      cases hexec
      apply h.pass hH hb
      split
      · exact ⟨_, next⟩
      · exact ⟨_, again.append (.loop again next)⟩
  | forever again =>
      cases hexec
      exact h.pass hH hb ⟨b', again.append (.forever again)⟩
  | stop =>
      cases hexec
      exact ⟨held, ret, h.follows, h.unstarted, h.owns, h.nodup, h.handed⟩

theorem Obeys.step {a : θ × Nat} (h : o.Obeys x held ret)
    (hbody : ∀ u, o.Ends u (fun _ => False) [] false (body u))
    (hstep : Threads.step body x a = some x') :
    ∃ held' ret', o.Obeys x' held' ret' := by
  unfold Threads.step at hstep
  split at hstep
  · cases hstep
  · split at hstep
    · exact h.exec hbody ‹_› hstep
    · cases hstep

omit [DecidableEq ℓ] in
theorem obeys_init {t₀ : θ}
    (hbody : o.Ends t₀ (fun _ => False) [] false (body t₀)) :
    o.Obeys (Threads.init t₀ (body t₀)) (fun _ => []) fun _ => false where
  follows t k ht := by
    change Function.update (fun _ => none) t₀ (some (body t₀)) t = some k at ht
    by_cases htt : t = t₀
    · subst htt
      rw [Function.update_self] at ht
      cases ht
      exact hbody.mono fun _ => False.elim
    · rw [Function.update_of_ne htt] at ht
      cases ht
  unstarted _ _ := ⟨rfl, rfl⟩
  owns l t := by simp [Threads.init, Threads.Owns]
  nodup _ := List.nodup_nil
  handed := by simp [Threads.init]

theorem obeys_reachable {t₀ : θ}
    (hbody : ∀ u, o.Ends u (fun _ => False) [] false (body u))
    (h : Reachable (Threads.step body) (Threads.init t₀ (body t₀)) x) :
    ∃ held ret, o.Obeys x held ret := by
  refine h.invariant (I := fun x => ∃ held ret, o.Obeys x held ret)
    ⟨_, _, obeys_init (hbody t₀)⟩ ?_
  rintro x a x' _ ⟨held, ret, ih⟩ _ hstep
  exact ih.step hbody hstep

end Run

section Deadlock

variable {x : Threads θ ℓ χ} {held : θ → List ℓ} {ret : θ → Bool} {u v : θ}

def goal (o : LockOrder θ ℓ χ R) (x : Threads θ ℓ χ) (ret : θ → Bool) (t : θ) :
    WithTop R :=
  match x.rest t with
  | some (.lock _ l :: _) => o.rank l
  | some (.join u :: _) => if ret u then ⊤ else o.endRank u
  | _ => ⊤

/-- What a waiting thread waits for ranks above its mutexes and its own end,
and it has not retired. -/
theorem Obeys.goal_of_waits (h : o.Obeys x held ret) (hw : x.WaitsFor t u) :
    ret t = false ∧ (o.endRank t : WithTop R) < o.goal x ret t ∧
      ∀ l ∈ held t, (o.rank l : WithTop R) < o.goal x ret t := by
  cases hw with
  | lock wants owns =>
      obtain ⟨b', hfollows⟩ := h.follows t _ wants
      generalize ret t = b at hfollows ⊢
      generalize held t = H at hfollows ⊢
      simp only [goal, wants]
      cases hfollows with
      | lock ascends above _ =>
          exact ⟨rfl, WithTop.coe_lt_coe.mpr above,
            fun l hl => WithTop.coe_lt_coe.mpr (ascends l hl)⟩
  | join wants runs =>
      obtain ⟨b', hfollows⟩ := h.follows t _ wants
      generalize ret t = b at hfollows ⊢
      generalize held t = H at hfollows ⊢
      simp only [goal, wants]
      cases hfollows with
      | join waits _ =>
          by_cases hu : ret u = true
          · rw [if_pos hu]
            exact ⟨rfl, WithTop.coe_lt_top _, fun l _ => WithTop.coe_lt_top _⟩
          · rw [if_neg hu]
            obtain ⟨ascends, above⟩ := waits.resolve_left hu
            exact ⟨rfl, WithTop.coe_lt_coe.mpr above,
              fun l hl => WithTop.coe_lt_coe.mpr (ascends l hl)⟩

theorem Obeys.goal_lt (h : o.Obeys x held ret) (htu : x.WaitsFor t u)
    (huv : x.WaitsFor u v) : o.goal x ret t < o.goal x ret u := by
  obtain ⟨hret, habove, hheld⟩ := h.goal_of_waits huv
  cases htu with
  | lock wants owns =>
      have hl := hheld _ ((h.owns _ _).mp owns)
      rw [goal, wants]
      exact hl
  | join wants runs =>
      rw [goal, wants]
      simp only [hret]
      exact habove

theorem Obeys.not_deadlock [WellFoundedGT R] (h : o.Obeys x held ret)
    (S : Set θ) : ¬ x.Deadlock S := by
  rintro ⟨hne, hS⟩
  -- the thread whose goal ranks highest waits for one whose goal ranks higher
  obtain ⟨_, ⟨t, ht, rfl⟩, hmax⟩ :=
    WellFounded.has_min (wellFounded_gt (α := WithTop R))
      ((o.goal x ret) '' S) (hne.image _)
  obtain ⟨u, hu, htu⟩ := hS t ht
  obtain ⟨v, -, huv⟩ := hS u hu
  exact hmax _ ⟨u, hu, rfl⟩ (h.goal_lt htu huv)

end Deadlock

end LockOrder

end CntPeer.Foundation
