import CntPeer.Foundation.StreamReader

/-!
# Streams that arrive in chunks

A receiver takes what has arrived, at most as much as it has room for, so the
same stream can be cut in many ways.  A reader that keeps cells of its own
implements a reader of the stream when the cut does not matter to it.
-/

namespace CntPeer.Foundation

variable {β : Type}

/-- Take at most `length` cells of the next chunk; `none` waits for ever. -/
def recv (length : Nat) : List (List β) →
    Option ({ l : List β // l.length ≤ length } × List (List β))
  | [] => none
  | c :: cs =>
      if h : c.length ≤ length then some (⟨c, h⟩, cs)
      else some (⟨c.take length, List.length_take_le length c⟩,
        c.drop length :: cs)

/-- No more receives than these find something. -/
def pending (cs : List (List β)) : Nat := cs.length + cs.flatten.length

def gather : Nat → Nat → List (List β) → Option (List β × List (List β))
  | 0, n, cs => if n = 0 then some ([], cs) else none
  | fuel + 1, n, cs =>
      if n = 0 then some ([], cs)
      else (recv n cs).bind fun p =>
        (gather fuel (n - p.1.1.length) p.2).map fun q => (p.1.1 ++ q.1, q.2)

variable {n fuel : Nat} {cs cs' : List (List β)}

theorem recv_eq_none : recv n cs = none ↔ cs = [] := by
  cases cs with
  | nil => simp [recv]
  | cons c cs =>
      rw [recv]
      split <;> simp

theorem flatten_of_recv {l : { l : List β // l.length ≤ n }}
    (h : recv n cs = some (l, cs')) : l ++ cs'.flatten = cs.flatten := by
  cases cs with
  | nil => cases h
  | cons c cs =>
      rw [recv] at h
      split at h
      · cases h
        rfl
      · cases h
        rw [List.flatten_cons, List.flatten_cons, ← List.append_assoc,
          List.take_append_drop]

theorem pending_of_recv {l : { l : List β // l.length ≤ n }}
    (h : recv n cs = some (l, cs')) (hn : 0 < n) : pending cs' < pending cs := by
  cases cs with
  | nil => cases h
  | cons c cs =>
      rw [recv] at h
      split at h
      · cases h
        simp only [pending, List.length_cons, List.flatten_cons,
          List.length_append]
        omega
      · cases h
        simp only [pending, List.length_cons, List.flatten_cons,
          List.length_append, List.length_drop]
        omega

theorem exists_recv (n : Nat) (h : cs ≠ []) :
    ∃ l cs', recv n cs = some (l, cs') := by
  obtain ⟨⟨l, cs'⟩, hrecv⟩ := Option.ne_none_iff_exists'.mp
    (mt recv_eq_none.mp h)
  exact ⟨l, cs', hrecv⟩

theorem gather_eq_some (hfuel : pending cs ≤ fuel)
    (h : n ≤ cs.flatten.length) :
    ∃ cs', gather fuel n cs = some (cs.flatten.take n, cs') ∧
      cs'.flatten = cs.flatten.drop n := by
  induction fuel generalizing n cs with
  | zero =>
      obtain rfl : n = 0 := by
        rw [pending] at hfuel
        omega
      exact ⟨cs, rfl, rfl⟩
  | succ fuel ih =>
      by_cases hn : n = 0
      · subst n
        exact ⟨cs, rfl, rfl⟩
      have hne : cs ≠ [] := by
        rintro rfl
        exact hn (Nat.le_zero.mp h)
      obtain ⟨l, left, hrecv⟩ := exists_recv n hne
      have hflatten := flatten_of_recv hrecv
      have hpending := pending_of_recv hrecv (by omega)
      rw [← hflatten, List.length_append] at h
      obtain ⟨cs', hgather, hcs'⟩ := @ih (n - l.1.length) left (by omega)
        (by omega)
      refine ⟨cs', ?_, ?_⟩
      · rw [gather, if_neg hn, hrecv, Option.bind_some, hgather, ← hflatten,
          List.take_append, List.take_of_length_le l.2]
        rfl
      · rw [hcs', ← hflatten, List.drop_append, List.drop_eq_nil_of_le l.2,
          List.nil_append]

theorem gather_eq_none (h : cs.flatten.length < n) : gather fuel n cs = none := by
  induction fuel generalizing n cs with
  | zero => exact if_neg (by omega)
  | succ fuel ih =>
      rw [gather, if_neg (by omega)]
      cases hrecv : recv n cs with
      | none => rfl
      | some p =>
          obtain ⟨l, left⟩ := p
          have hflatten := congrArg List.length (flatten_of_recv hrecv)
          rw [List.length_append] at hflatten
          have hrest := @ih (n - l.1.length) left (by omega)
          rw [Option.bind_some, hrest]
          rfl

/-- A reader with a state of its own; `none` waits for ever. -/
abbrev Receiver (σ ε : Type) := StateT σ (ExceptT ε Option)

variable {σ ε α γ : Type}

/-- A receiver decides as the reader does on the cells still to be read. -/
structure Implements (cells : σ → List β) (x : Receiver σ ε α)
    (r : Reader β ε α) : Prop where
  done : ∀ s a rest, r (cells s) = .done a rest →
    ∃ s', x.run s = some (.ok (a, s')) ∧ cells s' = rest
  more : ∀ s, r (cells s) = .more → x.run s = none
  fail : ∀ s e, r (cells s) = .fail e → x.run s = some (.error e)

namespace Implements

variable {cells : σ → List β} {x : Receiver σ ε α} {r : Reader β ε α}
  {f : α → Receiver σ ε γ} {g : α → Reader β ε γ}

theorem pure (a : α) :
    Implements cells (Pure.pure a : Receiver σ ε α) (Pure.pure a) where
  done s b rest h := by
    obtain ⟨rfl, rfl⟩ := Reader.pure_eq_done.mp h
    exact ⟨s, rfl, rfl⟩
  more s h := by cases h
  fail s e h := by cases h

theorem throw (e : ε) :
    Implements cells (MonadExcept.throw e : Receiver σ ε α) (Reader.fail e) where
  done s a rest h := by cases h
  more s h := by cases h
  fail s e' h := by
    cases h
    rfl

theorem bind (hx : Implements cells x r)
    (hf : ∀ a, Implements cells (f a) (g a)) :
    Implements cells (x >>= f) (r >>= g) where
  done s c rest h := by
    obtain ⟨a, left, hr, hg⟩ := Reader.bind_eq_done.mp h
    obtain ⟨s', hrun, rfl⟩ := hx.done s a left hr
    obtain ⟨t, hrun', rfl⟩ := (hf a).done s' c rest hg
    exact ⟨t, by rw [StateT.run_bind, hrun]; exact hrun', rfl⟩
  more s h := by
    rw [StateT.run_bind]
    rcases Reader.bind_eq_more.mp h with hr | ⟨a, left, hr, hg⟩
    · rw [hx.more s hr]
      rfl
    · obtain ⟨s', hrun, rfl⟩ := hx.done s a left hr
      rw [hrun]
      exact (hf a).more s' hg
  fail s e h := by
    rw [StateT.run_bind]
    rcases Reader.bind_eq_fail.mp h with hr | ⟨a, left, hr, hg⟩
    · rw [hx.fail s e hr]
      rfl
    · obtain ⟨s', hrun, rfl⟩ := hx.done s a left hr
      rw [hrun]
      exact (hf a).fail s' e hg

theorem times (hx : Implements cells x r) (n : Nat) :
    Implements cells (Reader.times x n) (Reader.times r n) := by
  induction n with
  | zero => exact pure []
  | succ n ih => exact hx.bind fun a => ih.bind fun as => pure (a :: as)

theorem reads_of_run (hx : Implements cells x r) {s s' : σ} {a : α}
    (h : x.run s = some (.ok (a, s'))) : r (cells s) = .done a (cells s') := by
  cases hr : r (cells s) with
  | done b rest =>
      obtain ⟨t, hrun, rfl⟩ := hx.done s b rest hr
      rw [hrun] at h
      cases h
      rfl
  | more => cases (hx.more s hr).symm.trans h
  | fail e => cases (hx.fail s e hr).symm.trans h

end Implements

end CntPeer.Foundation
