import Mathlib.Data.List.Basic

/-!
# Readers of a byte stream

A reader works on the cells that have arrived.  It finishes and leaves the rest,
gives up, or waits for more.  A stable reader keeps its decision when more cells
arrive, so it may run on any prefix of the stream.
-/

namespace CntPeer.Foundation

inductive Outcome (β ε α : Type) where
  | done (a : α) (rest : List β)
  | more
  | fail (e : ε)

def Reader (β ε α : Type) : Type := List β → Outcome β ε α

namespace Reader

variable {β ε α γ : Type}

def ret (a : α) : Reader β ε α := fun l => .done a l

def andThen (r : Reader β ε α) (f : α → Reader β ε γ) : Reader β ε γ :=
  fun l =>
    match r l with
    | .done a rest => f a rest
    | .more => .more
    | .fail e => .fail e

instance : Monad (Reader β ε) where
  pure := ret
  bind := andThen

def fail (e : ε) : Reader β ε α := fun _ => .fail e

def take (n : Nat) : Reader β ε (List β) := fun l =>
  if n ≤ l.length then .done (l.take n) (l.drop n) else .more

def next : Reader β ε β := fun l =>
  match l with
  | [] => .more
  | b :: rest => .done b rest

/-- A decision stands when more cells arrive. -/
structure Stable (r : Reader β ε α) : Prop where
  done : ∀ l a rest more, r l = .done a rest →
    r (l ++ more) = .done a (rest ++ more)
  fail : ∀ l e more, r l = .fail e → r (l ++ more) = .fail e

def times {m : Type → Type} [Monad m] (r : m α) : Nat → m (List α)
  | 0 => pure []
  | n + 1 => do
      let a ← r
      let as ← times r n
      return a :: as

/-- The cells `l` read as `a`, whatever follows. -/
def Reads (r : Reader β ε α) (l : List β) (a : α) : Prop :=
  ∀ rest, r (l ++ rest) = .done a rest

variable {r : Reader β ε α} {f : α → Reader β ε γ} {l k : List β} {a b : α}
  {c : γ}

theorem stable_pure (a : α) : Stable (pure a : Reader β ε α) where
  done l b rest more h := by
    cases h
    rfl
  fail _ _ _ h := nomatch h

theorem stable_fail (e : ε) : Stable (fail e : Reader β ε α) where
  done _ _ _ _ h := nomatch h
  fail l e' more h := by
    cases h
    rfl

theorem stable_next : Stable (next : Reader β ε β) where
  done l b rest more h := by
    cases l with
    | nil => cases h
    | cons => cases h; rfl
  fail l e more h := by
    cases l <;> cases h

theorem stable_take (n : Nat) : Stable (take n : Reader β ε (List β)) where
  done l b rest more h := by
    unfold take at h ⊢
    split at h
    · rename_i hn
      cases h
      rw [if_pos (by rw [List.length_append]; omega),
        List.take_append_of_le_length hn, List.drop_append_of_le_length hn]
    · cases h
  fail l e more h := by
    unfold take at h
    split at h <;> cases h

theorem Stable.bind (hr : Stable r) (hf : ∀ a, Stable (f a)) :
    Stable (r >>= f) where
  done l c rest more h := by
    change andThen r f l = _ at h
    change andThen r f (l ++ more) = _
    unfold andThen at h ⊢
    split at h
    · rename_i a left hl
      rw [hr.done l a left more hl]
      exact (hf a).done left c rest more h
    · cases h
    · cases h
  fail l e more h := by
    change andThen r f l = _ at h
    change andThen r f (l ++ more) = _
    unfold andThen at h ⊢
    split at h
    · rename_i a left hl
      rw [hr.done l a left more hl]
      exact (hf a).fail left e more h
    · cases h
    · rename_i e' hl
      rw [hr.fail l e' more hl]
      exact h

theorem reads_pure (a : α) : Reads (pure a : Reader β ε α) [] a :=
  fun _ => rfl

theorem reads_next (b : β) : Reads (next : Reader β ε β) [b] b :=
  fun _ => rfl

theorem reads_take (l : List β) :
    Reads (take l.length : Reader β ε (List β)) l l := by
  intro rest
  unfold take
  rw [if_pos (by rw [List.length_append]; omega), List.take_left,
    List.drop_left]

theorem Reads.bind (hr : Reads r k a) (hf : Reads (f a) l c) :
    Reads (r >>= f) (k ++ l) c := by
  intro rest
  change andThen r f _ = _
  unfold andThen
  rw [List.append_assoc, hr]
  exact hf rest

theorem Reads.then_pure (hr : Reads r l a) (g : α → γ) :
    Reads (r >>= fun x => pure (g x)) l (g a) := by
  have h := hr.bind (f := fun x => pure (g x)) (reads_pure (g a))
  rwa [List.append_nil] at h

theorem Reads.times {enc : α → List β} {as : List α}
    (h : ∀ a ∈ as, Reads r (enc a) a) :
    Reads (times r as.length) (as.flatMap enc) as := by
  induction as with
  | nil => exact reads_pure []
  | cons a as ih =>
      have hrest := ih fun a ha => h a (List.mem_cons_of_mem _ ha)
      exact (h a List.mem_cons_self).bind (hrest.then_pure (a :: ·))

theorem Stable.then_pure (hr : Stable r) (g : α → γ) :
    Stable (r >>= fun x => pure (g x)) :=
  hr.bind fun a => stable_pure (g a)

theorem eq_of_then_pure {g : α → γ} {k : List β}
    (h : (r >>= fun x => pure (g x)) l = .done c k) : ∃ a, c = g a := by
  change andThen r (fun x => pure (g x)) l = _ at h
  unfold andThen at h
  split at h
  · rename_i a rest hl
    cases h
    exact ⟨a, rfl⟩
  · cases h
  · cases h

@[simp] theorem pure_eq_done {k : List β} :
    (pure a : Reader β ε α) l = .done b k ↔ b = a ∧ l = k := by
  change Outcome.done a l = _ ↔ _
  rw [Outcome.done.injEq, eq_comm]

@[simp] theorem pure_ne_fail {e : ε} : (pure a : Reader β ε α) l ≠ .fail e := by
  intro h
  cases h

@[simp] theorem fail_ne_done {e : ε} {k : List β} :
    (fail e : Reader β ε α) l ≠ .done a k := by
  intro h
  cases h

@[simp] theorem fail_eq_fail {e e' : ε} :
    (fail e : Reader β ε α) l = .fail e' ↔ e' = e := by
  change Outcome.fail e = _ ↔ _
  rw [Outcome.fail.injEq, eq_comm]

@[simp] theorem next_eq_done {b : β} {k : List β} :
    (next : Reader β ε β) l = .done b k ↔ l = b :: k := by
  cases l with
  | nil => simp [next]
  | cons => simp [next]

@[simp] theorem next_ne_fail {e : ε} : (next : Reader β ε β) l ≠ .fail e := by
  cases l with
  | nil => simp [next]
  | cons => simp [next]

@[simp] theorem take_eq_done {n : Nat} {a k : List β} :
    (take n : Reader β ε (List β)) l = .done a k ↔
      l = a ++ k ∧ a.length = n := by
  unfold take
  constructor
  · intro h
    split at h
    · rename_i hn
      cases h
      exact ⟨(List.take_append_drop n l).symm, List.length_take_of_le hn⟩
    · cases h
  · rintro ⟨rfl, rfl⟩
    rw [if_pos (by rw [List.length_append]; omega), List.take_left,
      List.drop_left]

theorem take_eq_more {n : Nat} :
    (take n : Reader β ε (List β)) l = .more ↔ l.length < n := by
  unfold take
  split
  · rename_i hn
    simp [hn]
  · rename_i hn
    simp [Nat.lt_of_not_le hn]

theorem next_eq_more : (next : Reader β ε β) l = .more ↔ l = [] := by
  cases l with
  | nil => simp [next]
  | cons => simp [next]

@[simp] theorem take_ne_fail {n : Nat} {e : ε} :
    (take n : Reader β ε (List β)) l ≠ .fail e := by
  unfold take
  split <;> simp

theorem bind_eq_done {k : List β} :
    (r >>= f) l = .done c k ↔
      ∃ a left, r l = .done a left ∧ f a left = .done c k := by
  change andThen r f l = _ ↔ _
  unfold andThen
  cases r l with
  | done a left => simp
  | more => simp
  | fail => simp

theorem bind_eq_fail {e : ε} :
    (r >>= f) l = .fail e ↔
      r l = .fail e ∨ ∃ a left, r l = .done a left ∧ f a left = .fail e := by
  change andThen r f l = _ ↔ _
  unfold andThen
  cases r l with
  | done a left => simp
  | more => simp
  | fail => simp

theorem bind_eq_more :
    (r >>= f) l = .more ↔
      r l = .more ∨ ∃ a left, r l = .done a left ∧ f a left = .more := by
  change andThen r f l = _ ↔ _
  unfold andThen
  cases r l with
  | done a left => simp
  | more => simp
  | fail => simp

/-- On a prefix of the stream a reader decides as on the whole. -/
theorem Stable.eq_of_reads (hs : Stable r) (hr : Reads r l a)
    {rest left : List β} {n : Nat}
    (h : r ((l ++ rest).take n) = .done b left) :
    b = a ∧ left ++ (l ++ rest).drop n = rest := by
  have := hs.done _ b left ((l ++ rest).drop n) h
  rw [List.take_append_drop, hr] at this
  injection this with hab hrest
  exact ⟨hab.symm, hrest.symm⟩

theorem Stable.ne_fail_of_reads (hs : Stable r) (hr : Reads r l a)
    {rest : List β} {n : Nat} (e : ε) : r ((l ++ rest).take n) ≠ .fail e := by
  intro h
  have := hs.fail _ e ((l ++ rest).drop n) h
  rw [List.take_append_drop, hr] at this
  cases this

end Reader

end CntPeer.Foundation
