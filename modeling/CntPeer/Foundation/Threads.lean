import Mathlib.Logic.Function.Basic
import CntPeer.Foundation.Transition

/-!
# Threads with mutexes

A language of thread bodies that keeps what makes threads wait: mutexes, joins
and a queue of items handed over from thread to thread.  What depends on other
data is a choice, so a body has every run of the code and possibly more.
-/

namespace CntPeer.Foundation

inductive Mode where
  | shared
  | exclusive
  deriving DecidableEq

inductive Stmt (θ ℓ χ : Type) where
  | lock (mode : Mode) (l : ℓ)
  | unlock (l : ℓ)
  | join (u : θ)
  | spawn (u : θ)
  /-- start a thread of the family that has not been started -/
  | spawnNew (f : Nat → θ)
  | push (a : χ)
  | pop (f : χ → List (Stmt θ ℓ χ))
  | whileEmpty (body : List (Stmt θ ℓ χ))
  | choice (alts : List (List (Stmt θ ℓ χ)))
  | any (f : Nat → List (Stmt θ ℓ χ))
  | loop (body : List (Stmt θ ℓ χ))
  | forever (body : List (Stmt θ ℓ χ))
  | stop

abbrev Body (θ ℓ χ : Type) := List (Stmt θ ℓ χ)

structure Threads (θ ℓ χ : Type) where
  /-- what is left to do; `none` for a thread that has not been started -/
  rest : θ → Option (Body θ ℓ χ)
  owners : ℓ → List (θ × Mode)
  queue : List χ
  stopped : Bool

namespace Threads

variable {θ ℓ χ : Type}

def Owns (x : Threads θ ℓ χ) (u : θ) (l : ℓ) : Prop :=
  ∃ mode, (u, mode) ∈ x.owners l

/--
`t` waits for a mutex that `u` owns, or for the end of `u`.  The modes do not
matter, so readers that queue behind a writer count as waiting for the readers
in front of it.
-/
inductive WaitsFor (x : Threads θ ℓ χ) (t u : θ) : Prop
  | lock {mode : Mode} {l : ℓ} {k : Body θ ℓ χ}
      (wants : x.rest t = some (.lock mode l :: k))
      (owns : x.Owns u l) : WaitsFor x t u
  | join {k k' : Body θ ℓ χ} {s : Stmt θ ℓ χ}
      (wants : x.rest t = some (.join u :: k))
      (runs : x.rest u = some (s :: k')) : WaitsFor x t u

/-- Threads each of which waits for one of them. -/
def Deadlock (x : Threads θ ℓ χ) (S : Set θ) : Prop :=
  S.Nonempty ∧ ∀ t ∈ S, ∃ u ∈ S, x.WaitsFor t u

def admits (x : Threads θ ℓ χ) (l : ℓ) : Mode → Bool
  | .shared => (x.owners l).all fun o => o.2 = .shared
  | .exclusive => (x.owners l).isEmpty

variable [DecidableEq θ] [DecidableEq ℓ]

def init (t : θ) (body : Body θ ℓ χ) : Threads θ ℓ χ where
  rest := Function.update (fun _ => none) t (some body)
  owners := fun _ => []
  queue := []
  stopped := false

def goto (x : Threads θ ℓ χ) (t : θ) (k : Body θ ℓ χ) : Threads θ ℓ χ :=
  { x with rest := Function.update x.rest t (some k) }

def acquire (x : Threads θ ℓ χ) (t : θ) (l : ℓ) (mode : Mode) :
    Threads θ ℓ χ :=
  { x with owners := Function.update x.owners l ((t, mode) :: x.owners l) }

def release (x : Threads θ ℓ χ) (t : θ) (l : ℓ) : Threads θ ℓ χ :=
  { x with owners :=
      Function.update x.owners l ((x.owners l).filter fun o => o.1 ≠ t) }

def start (x : Threads θ ℓ χ) (body : θ → Body θ ℓ χ) (t u : θ)
    (k : Body θ ℓ χ) : Option (Threads θ ℓ χ) :=
  match x.rest u with
  | none => some ((x.goto t k).goto u (body u))
  | some _ => none

def exec (body : θ → Body θ ℓ χ) (x : Threads θ ℓ χ) (t : θ) (n : Nat)
    (k : Body θ ℓ χ) : Stmt θ ℓ χ → Option (Threads θ ℓ χ)
  | .lock mode l =>
      if x.admits l mode then some ((x.acquire t l mode).goto t k) else none
  | .unlock l => some ((x.release t l).goto t k)
  | .join u =>
      match x.rest u with
      | some (_ :: _) => none
      | _ => some (x.goto t k)
  | .spawn u => x.start body t u k
  | .spawnNew f => x.start body t (f n) k
  | .push a => some ({ x with queue := x.queue ++ [a] }.goto t k)
  | .pop f =>
      match x.queue with
      | [] => none
      | a :: rest => some ({ x with queue := rest }.goto t (f a ++ k))
  | .whileEmpty b =>
      some (x.goto t (if x.queue.isEmpty then b ++ .whileEmpty b :: k else k))
  | .choice alts => alts[n]?.map fun b => x.goto t (b ++ k)
  | .any f => some (x.goto t (f n ++ k))
  | .loop b => some (x.goto t (if n = 0 then k else b ++ .loop b :: k))
  | .forever b => some (x.goto t (b ++ .forever b :: k))
  | .stop => some { x with stopped := true }

def step (body : θ → Body θ ℓ χ) (x : Threads θ ℓ χ) (a : θ × Nat) :
    Option (Threads θ ℓ χ) :=
  if x.stopped then none
  else
    match x.rest a.1 with
    | some (s :: k) => exec body x a.1 a.2 k s
    | _ => none

variable {x : Threads θ ℓ χ} {t u : θ} {l l' : ℓ} {mode : Mode}

omit [DecidableEq θ] in
theorem owns_acquire :
    (x.acquire t l mode).Owns u l' ↔ u = t ∧ l' = l ∨ x.Owns u l' := by
  unfold Owns acquire
  by_cases hl : l' = l
  · subst hl
    simp only [Function.update_self, List.mem_cons, Prod.mk.injEq, and_true]
    constructor
    · rintro ⟨m, ⟨rfl, -⟩ | hm⟩
      · exact .inl rfl
      · exact .inr ⟨m, hm⟩
    · rintro (rfl | ⟨m, hm⟩)
      · exact ⟨mode, .inl ⟨rfl, rfl⟩⟩
      · exact ⟨m, .inr hm⟩
  · simp [hl]

theorem owns_release :
    (x.release t l).Owns u l' ↔ ¬(u = t ∧ l' = l) ∧ x.Owns u l' := by
  unfold Owns release
  by_cases hl : l' = l
  · subst hl
    simp [and_comm]
  · simp [hl]

end Threads

end CntPeer.Foundation
