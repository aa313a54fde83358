import Respawn.StateLogic

/-!
# Conversations with an adaptive peer

A program asks questions of a peer that may answer anything: a peer maps the
questions asked so far, the last one included, to its answer.  A run of the
program is `Confined` to a list of questions when it looks at no other answer:
with any peer that answers these questions in the same way it is the same run.
So `Confined` bounds what a run asks, whatever the peer's strategy is.

The rules follow the program: a part that does not use the peer asks nothing,
a question is one round, and a sequence asks what its parts ask, the second one
after the first.

Two runs are `Alike` when they differ in their error at most, which is what is
left of a comparison where the peers fail in different ways.
-/

namespace Conversation

open StateLogic

/-- A peer's strategy: its answer to the last of the questions asked so far, or
none when it is gone. -/
abbrev Strategy (Q A : Type) := List Q → Option A

variable {Q A ε σ α β : Type}

/-- After the questions in `sent`, the run from `s` asks at most the questions in
`asked`, in this order. -/
def Confined (run : Strategy Q A → EStateM ε σ α) (peer : Strategy Q A) (sent asked : List Q)
    (s : σ) : Prop :=
  ∀ peer' : Strategy Q A,
    (∀ qs, qs ≠ [] → qs <+: asked → peer' (sent ++ qs) = peer (sent ++ qs)) →
    run peer' s = run peer s

variable {peer : Strategy Q A} {sent asked more : List Q} {s t : σ}

/-- A part that does not use the peer. -/
theorem confined_of_free {run : Strategy Q A → EStateM ε σ α}
    (h : ∀ p q, run p s = run q s) (asked : List Q) : Confined run peer sent asked s :=
  fun peer' _ => h peer' peer

/-- Two programs that agree in a state. -/
theorem Confined.congr {run run' : Strategy Q A → EStateM ε σ α}
    (h : Confined run' peer sent asked s) (heq : ∀ p, run p s = run' p s) :
    Confined run peer sent asked s := by
  intro peer' hagree
  rw [heq peer', heq peer]
  exact h peer' hagree

/-- One question: what is computed from the answer alone. -/
theorem confined_ask {run : Strategy Q A → EStateM ε σ α} {q : Q}
    (h : ∀ p p' : Strategy Q A, p (sent ++ [q]) = p' (sent ++ [q]) → run p s = run p' s) :
    Confined run peer sent [q] s :=
  fun peer' hagree => h peer' peer (hagree [q] (List.cons_ne_nil _ _) List.prefix_rfl)

/-- A sequence whose first part fails asks what the first part asks. -/
theorem Confined.bind_error {run : Strategy Q A → EStateM ε σ α}
    {f : Strategy Q A → α → EStateM ε σ β} {e : ε} (h : Confined run peer sent asked s)
    (hrun : run peer s = .error e t) :
    Confined (fun p => run p >>= f p) peer sent asked s := by
  intro peer' hagree
  show (run peer' >>= f peer') s = (run peer >>= f peer) s
  rw [bind_apply, bind_apply, h peer' hagree, hrun]

/-- A sequence asks what its parts ask, one after the other. -/
theorem Confined.bind {run : Strategy Q A → EStateM ε σ α}
    {f : Strategy Q A → α → EStateM ε σ β} {a : α} (h : Confined run peer sent asked s)
    (hrun : run peer s = .ok a t) (hf : Confined (fun p => f p a) peer (sent ++ asked) more t) :
    Confined (fun p => run p >>= f p) peer sent (asked ++ more) s := by
  intro peer' hagree
  have hfirst : run peer' s = run peer s := by
    refine h peer' fun qs hne hqs => hagree qs hne (hqs.trans (List.prefix_append _ _))
  show (run peer' >>= f peer') s = (run peer >>= f peer) s
  rw [bind_apply, bind_apply, hfirst, hrun]
  refine hf peer' fun qs hne hqs => ?_
  rw [List.append_assoc]
  exact hagree (asked ++ qs) (by simp [hne]) ((List.prefix_append_right_inj asked).mpr hqs)

/-- A sequence whose second part does not use the peer. -/
theorem Confined.before {run : Strategy Q A → EStateM ε σ α} {f : α → EStateM ε σ β}
    (h : Confined run peer sent asked s) : Confined (fun p => run p >>= f) peer sent asked s := by
  intro peer' hagree
  show (run peer' >>= f) s = (run peer >>= f) s
  rw [bind_apply, bind_apply, h peer' hagree]

/-! ## Runs that differ in their error at most -/

/-- Both succeed, with the same value, or both fail; and they end in the same
state. -/
def Alike (r r' : EStateM.Result ε σ α) : Prop :=
  returned r = returned r' ∧ finalState r = finalState r'

namespace Alike

variable {x x' : EStateM ε σ α} {f f' : α → EStateM ε σ β}

theorem refl (r : EStateM.Result ε σ α) : Alike r r := ⟨rfl, rfl⟩

theorem errors (e e' : ε) (s : σ) : Alike (.error e s : EStateM.Result ε σ α) (.error e' s) :=
  ⟨rfl, rfl⟩

/-- A run alike to one that returns returns the same. -/
theorem ok {r r' : EStateM.Result ε σ α} {a : α} (h : Alike r r') (hr : r' = .ok a s) :
    r = .ok a s := by
  subst hr
  obtain ⟨hvalue, hstate⟩ := h
  rw [eq_ok_of_returned hvalue, hstate]
  rfl

/-- A run alike to one that fails fails. -/
theorem error {r r' : EStateM.Result ε σ α} {e : ε} (h : Alike r r') (hr : r' = .error e s) :
    ∃ e', r = .error e' s := by
  subst hr
  cases r with
  | ok a t => cases h.1
  | error e' t => exact ⟨e', by rw [show t = s from h.2]⟩

/-- A sequence of parts that are alike, the second one after a success. -/
theorem bind (hx : Alike (x s) (x' s))
    (hf : ∀ a t, x' s = .ok a t → Alike (f a t) (f' a t)) :
      Alike ((x >>= f) s) ((x' >>= f') s) := by
  rw [bind_apply, bind_apply]
  cases hrun : x' s with
  | ok a t =>
      rw [hx.ok hrun]
      exact hf a t hrun
  | error e t =>
      obtain ⟨e', he'⟩ := hx.error hrun
      rw [he']
      exact errors e' e t

end Alike

end Conversation
