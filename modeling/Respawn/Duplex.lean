import Respawn.StateLogic

/-!
# A server at one end of a channel

An end of a connection reads frames and writes frames.  From any state an end
`Hears` a list of frames: those that it reads before the first failure, for
whatever reason reading fails.  What it has written is seen through a
`Channel`: which frames it takes, and that a frame it takes is the next one
gone out and does not change what is still to be read.

A server answers one request after another until it cannot read one, reads its
last one, has no answer, or cannot send its answer.  `serve` is that loop and
`answers` the list of what it sends.

* `serve_step` — the loop is a turn and the loop from there;
* `Channel.serve_answers` — the loop writes exactly the answers to what it
  hears;
* `mem_answers` — an answer is the response to a request, and one that is taken;
* `answers_answered` — what has been answered does not depend on what comes
  later.
-/

namespace Duplex

open StateLogic

variable {ε σ F α β : Type}

/-! ## Programs that do not look at a part of the state -/

/-- Change the state that an outcome ends in. -/
def mapState (f : σ → σ) : EStateM.Result ε σ α → EStateM.Result ε σ α
  | .ok a s => .ok a (f s)
  | .error e s => .error e (f s)

/-- The program does the same after the change and leaves the change. -/
def Commutes (f : σ → σ) (x : EStateM ε σ α) : Prop := ∀ s, x (f s) = mapState f (x s)

namespace Commutes

variable {f : σ → σ}

theorem pure (a : α) : Commutes f (pure a : EStateM ε σ α) := fun _ => rfl

theorem throw (e : ε) : Commutes f (throw e : EStateM ε σ α) := fun _ => rfl

/-- Commuting goes through a sequence of two. -/
theorem bind {x : EStateM ε σ α} {g : α → EStateM ε σ β} (hx : Commutes f x)
    (hg : ∀ a, Commutes f (g a)) : Commutes f (x >>= g) := by
  intro s
  rw [bind_apply, bind_apply, hx s]
  cases x s with
  | ok a s' => exact hg a s'
  | error e s' => rfl

/-- Commuting goes through a branch. -/
theorem ite {c : Prop} [Decidable c] {x y : EStateM ε σ α} (hx : Commutes f x)
    (hy : Commutes f y) : Commutes f (if c then x else y) := by
  by_cases hc : c
  · rwa [if_pos hc]
  · rwa [if_neg hc]

/-- A state that the change leaves as it is ends as one. -/
theorem fixed {x : EStateM ε σ α} (hx : Commutes f x) {s : σ} (hs : f s = s) :
    finalState (x s) = f (finalState (x s)) := by
  have hrun := hx s
  rw [hs] at hrun
  cases hout : x s with
  | ok a s' =>
      rw [hout] at hrun
      exact (EStateM.Result.ok.inj hrun).2
  | error e s' =>
      rw [hout] at hrun
      exact (EStateM.Result.error.inj hrun).2

end Commutes

/-! ## Ends -/

/-- An end of a connection. -/
structure End (ε σ F : Type) where
  read : EStateM ε σ F
  write : F → EStateM ε σ Unit

namespace End

variable (E : End ε σ F)

/-- From this state these frames are read, and then reading fails. -/
inductive Hears : σ → List F → Prop
  | done {s : σ} {e : ε} {t : σ} (hread : E.read s = .error e t) : Hears s []
  | more {s : σ} {f : F} {t : σ} {ins : List F} (hread : E.read s = .ok f t)
      (hrest : Hears t ins) : Hears s (f :: ins)

/-- Send the response to a request, if there is one. -/
def reply (response : Except ε F) : EStateM ε σ Unit := fun s =>
  match response with
  | .ok out => E.write out s
  | .error e => .error e s

/-- Answer the requests from number `n` on; `k` bounds their number. -/
def serve (respond : Nat → F → Except ε F) (last : F → Bool) : Nat → Nat → EStateM ε σ Unit
  | 0, _ => pure ()
  | k + 1, n => fun s =>
      match E.read s with
      | .error _ s' => .ok () s'
      | .ok f s' =>
          if last f then .ok () s'
          else match E.reply (respond n f) s' with
            | .error _ s'' => .ok () s''
            | .ok _ s'' => serve respond last k (n + 1) s''

variable {E} {s : σ}

/-- What is heard is determined. -/
theorem Hears.unique {ins ins' : List F} (h : E.Hears s ins) (h' : E.Hears s ins') :
    ins = ins' := by
  induction h generalizing ins' with
  | done hread =>
      cases h' with
      | done _ => rfl
      | more hread' _ =>
          rw [hread] at hread'
          cases hread'
  | more hread _ ih =>
      cases h' with
      | done hread' =>
          rw [hread] at hread'
          cases hread'
      | more hread' hrest' =>
          rw [hread] at hread'
          cases hread'
          rw [ih hrest']

/-- Something is heard from any state where reading uses something up, and not
more frames than there is to use up. -/
theorem exists_hears (μ : σ → Nat) (hdown : ∀ s f s', E.read s = .ok f s' → μ s' < μ s) (s : σ) :
    ∃ ins, E.Hears s ins ∧ ins.length ≤ μ s := by
  generalize hm : μ s = m
  induction m using Nat.strongRecOn generalizing s with
  | _ m ih =>
      cases hread : E.read s with
      | error e s' => exact ⟨[], .done hread, Nat.zero_le _⟩
      | ok f s' =>
          have hlt := hdown s f s' hread
          obtain ⟨ins, hins, hlen⟩ := ih (μ s') (hm ▸ hlt) s' rfl
          refine ⟨f :: ins, .more hread hins, ?_⟩
          rw [List.length_cons]
          omega

/-- What is heard after a change that reading does not look at. -/
theorem Hears.change {g : σ → σ} {ins : List F} (hg : Commutes g E.read) (h : E.Hears s ins) :
    E.Hears (g s) ins := by
  induction h with
  | @done s e s' hread =>
      refine .done (e := e) (t := g s') ?_
      rw [hg, hread]
      rfl
  | @more s f s' ins hread _ ih =>
      refine .more (t := g s') ?_ ih
      rw [hg, hread]
      rfl

/-- What is heard is a matter of the reader. -/
theorem Hears.of_read {E' : End ε σ F} {ins : List F} (h : E.Hears s ins)
    (hread : E'.read = E.read) : E'.Hears s ins := by
  induction h with
  | done hrun => exact .done (hread ▸ hrun)
  | more hrun _ ih => exact .more (hread ▸ hrun) ih

end End

/-- What is seen of the frames that an end writes. -/
structure Channel (E : End ε σ F) where
  said : σ → List F → Prop
  takes : F → Bool
  read_said : ∀ {s outs}, said s outs → said (finalState (E.read s)) outs
  write_taken : ∀ {s f outs}, takes f = true → said s outs →
    ∃ s', E.write f s = .ok () s' ∧ said s' (outs ++ [f]) ∧ ∀ ins, E.Hears s ins → E.Hears s' ins
  write_refused : ∀ {s f outs}, takes f = false → said s outs →
    ∃ e s', E.write f s = .error e s' ∧ said s' outs

/-- What is answered to a list of requests. -/
def answers (respond : Nat → F → Except ε F) (last takes : F → Bool) : Nat → List F → List F
  | _, [] => []
  | n, f :: rest =>
      if last f then []
      else match respond n f with
        | .error _ => []
        | .ok out => if takes out then out :: answers respond last takes (n + 1) rest else []

/-! ## One turn of the loop -/

section Turn

variable {E : End ε σ F} {respond : Nat → F → Except ε F} {last : F → Bool} {k n : Nat}
  {s s' s'' : σ} {f : F} {e : ε}

theorem serve_unread (hread : E.read s = .error e s') :
    E.serve respond last (k + 1) n s = .ok () s' := by
  simp only [End.serve, hread]

theorem serve_last (hread : E.read s = .ok f s') (hlast : last f = true) :
    E.serve respond last (k + 1) n s = .ok () s' := by
  simp only [End.serve, hread, hlast, if_true]

theorem serve_unanswered (hread : E.read s = .ok f s') (hlast : last f = false)
    (hreply : E.reply (respond n f) s' = .error e s'') :
    E.serve respond last (k + 1) n s = .ok () s'' := by
  simp only [End.serve, hread, hlast, hreply, if_false, Bool.false_eq_true]

theorem serve_answered (hread : E.read s = .ok f s') (hlast : last f = false)
    (hreply : E.reply (respond n f) s' = .ok () s'') :
    E.serve respond last (k + 1) n s = E.serve respond last k (n + 1) s'' := by
  simp only [End.serve, hread, hlast, hreply, if_false, Bool.false_eq_true]

/-- One turn of `serve`: whether the loop goes on, and the state it leaves. -/
def End.turn (E : End ε σ F) (response : F → Except ε F) (last : F → Bool) (s : σ) : Bool × σ :=
  match E.read s with
  | .error _ s' => (false, s')
  | .ok f s' =>
      if last f then (false, s')
      else match E.reply (response f) s' with
        | .error _ s'' => (false, s'')
        | .ok _ s'' => (true, s'')

/-- The loop is one turn and, if that goes on, the rest. -/
theorem serve_turn (k n : Nat) (s : σ) :
    finalState (E.serve respond last (k + 1) n s) =
      if (E.turn (respond n) last s).1 then
        finalState (E.serve respond last k (n + 1) (E.turn (respond n) last s).2)
      else (E.turn (respond n) last s).2 := by
  cases hread : E.read s with
  | error e s' =>
      have hturn : E.turn (respond n) last s = (false, s') := by simp only [End.turn, hread]
      rw [serve_unread hread, hturn]
      rfl
  | ok f s' =>
      by_cases hlast : last f = true
      · have hturn : E.turn (respond n) last s = (false, s') := by
          simp only [End.turn, hread, hlast, if_true]
        rw [serve_last hread hlast, hturn]
        rfl
      · have hgoes := Bool.not_eq_true _ ▸ hlast
        cases hreply : E.reply (respond n f) s' with
        | error e s'' =>
            have hturn : E.turn (respond n) last s = (false, s'') := by
              simp only [End.turn, hread, hlast, hreply, if_false, Bool.false_eq_true]
            rw [serve_unanswered hread hgoes hreply, hturn]
            rfl
        | ok _ s'' =>
            have hturn : E.turn (respond n) last s = (true, s'') := by
              simp only [End.turn, hread, hlast, hreply, if_false, Bool.false_eq_true]
            rw [serve_answered hread hgoes hreply, hturn]
            rfl

/-- Every frame that is read uses something up, and writing brings nothing
back. -/
structure End.Wanes (E : End ε σ F) (μ : σ → Nat) : Prop where
  read : ∀ {s f s'}, E.read s = .ok f s' → μ s' < μ s
  write : ∀ f s, μ (finalState (E.write f s)) ≤ μ s

/-- A turn after which the loop goes on used something up. -/
theorem End.Wanes.turn {μ : σ → Nat} (hμ : E.Wanes μ) {response : F → Except ε F}
    (hgoes : (E.turn response last s).1 = true) : μ (E.turn response last s).2 < μ s := by
  unfold End.turn at hgoes ⊢
  cases hread : E.read s with
  | error e s' =>
      rw [hread] at hgoes
      cases hgoes
  | ok f s' =>
      have hless := hμ.read hread
      simp only [hread] at hgoes ⊢
      by_cases hlast : last f = true
      · simp only [hlast, if_true, Bool.false_eq_true] at hgoes
      · simp only [hlast, if_false, Bool.false_eq_true] at hgoes ⊢
        cases hresp : response f with
        | error e =>
            simp only [hresp, End.reply, Bool.false_eq_true] at hgoes
        | ok out =>
            have hwrite := hμ.write out s'
            simp only [hresp, End.reply] at hgoes ⊢
            cases hrun : E.write out s' with
            | error e s'' => simp only [hrun, Bool.false_eq_true] at hgoes
            | ok u s'' =>
                rw [hrun] at hwrite
                exact Nat.lt_of_le_of_lt hwrite hless

/-- Turns that the loop does not need change nothing. -/
theorem serve_enough {μ : σ → Nat} (hμ : E.Wanes μ) {k' : Nat} (hk : μ s < k) (hk' : μ s < k') :
    finalState (E.serve respond last k n s) = finalState (E.serve respond last k' n s) := by
  induction k generalizing k' n s with
  | zero => omega
  | succ j ih =>
      obtain ⟨j', rfl⟩ : ∃ j', k' = j' + 1 := ⟨k' - 1, by omega⟩
      rw [serve_turn, serve_turn]
      by_cases hgoes : (E.turn (respond n) last s).1 = true
      · have hless := hμ.turn hgoes
        rw [if_pos hgoes, if_pos hgoes]
        exact ih (by omega) (by omega)
      · rw [if_neg hgoes, if_neg hgoes]

/-- A turn, and the loop that runs until it ends. -/
theorem serve_step {μ : σ → Nat} (hμ : E.Wanes μ) (n : Nat) (s : σ) :
    finalState (E.serve respond last (μ s + 1) n s) =
      if (E.turn (respond n) last s).1 then
        finalState (E.serve respond last (μ (E.turn (respond n) last s).2 + 1) (n + 1)
          (E.turn (respond n) last s).2)
      else (E.turn (respond n) last s).2 := by
  rw [serve_turn]
  by_cases hgoes : (E.turn (respond n) last s).1 = true
  · rw [if_pos hgoes, if_pos hgoes]
    exact serve_enough hμ (hμ.turn hgoes) (Nat.lt_succ_self _)
  · rw [if_neg hgoes, if_neg hgoes]

end Turn

/-- **A server writes its answers.**  The loop ends, by itself when it may take
one turn more than there are requests, and has sent the answers to what it
heard. -/
theorem Channel.serve_answers {E : End ε σ F} (C : Channel E) (respond : Nat → F → Except ε F)
    (last : F → Bool) {k n : Nat} {s : σ} {ins outs : List F} (hears : E.Hears s ins)
    (hsaid : C.said s outs) (hk : ins.length < k) :
    ∃ s', E.serve respond last k n s = .ok () s' ∧
      C.said s' (outs ++ answers respond last C.takes n ins) := by
  induction ins generalizing k n s outs with
  | nil =>
      obtain ⟨j, rfl⟩ : ∃ j, k = j + 1 := ⟨k - 1, by omega⟩
      cases hears with
      | @done _ e s' hread =>
          have hafter := C.read_said hsaid
          rw [hread] at hafter
          exact ⟨s', serve_unread hread, by rwa [answers, List.append_nil]⟩
  | cons f rest ih =>
      obtain ⟨j, rfl⟩ : ∃ j, k = j + 1 := ⟨k - 1, by omega⟩
      rw [List.length_cons] at hk
      cases hears with
      | @more _ _ s' _ hread hrest =>
          have hafter : C.said s' outs := by
            have := C.read_said hsaid
            rwa [hread] at this
          cases hlast : last f with
          | true => exact ⟨s', serve_last hread hlast, by simpa [answers, hlast] using hafter⟩
          | false =>
              cases hresp : respond n f with
              | error e =>
                  have hreply : E.reply (respond n f) s' = .error e s' := by rw [hresp]; rfl
                  refine ⟨s', serve_unanswered hread hlast hreply, ?_⟩
                  simpa [answers, hlast, hresp] using hafter
              | ok out =>
                  have hwrite : E.reply (respond n f) s' = E.write out s' := by rw [hresp]; rfl
                  cases htakes : C.takes out with
                  | true =>
                      obtain ⟨s'', hsent, hsaid', hsame⟩ := C.write_taken htakes hafter
                      obtain ⟨t, hrun, hdone⟩ :=
                        @ih j (n + 1) s'' (outs ++ [out]) (hsame rest hrest) hsaid' (by omega)
                      refine ⟨t, (serve_answered hread hlast (hwrite.trans hsent)).trans hrun, ?_⟩
                      simpa [answers, hlast, hresp, htakes] using hdone
                  | false =>
                      obtain ⟨e, s'', hrefused, hsaid'⟩ := C.write_refused htakes hafter
                      refine ⟨s'', serve_unanswered hread hlast (hwrite.trans hrefused), ?_⟩
                      simpa [answers, hlast, hresp, htakes] using hsaid'

/-! ## Answers -/

section Answers

variable {respond : Nat → F → Except ε F} {last takes : F → Bool}

/-- A request that is answered. -/
theorem answers_cons {n : Nat} {f out : F} {rest : List F} (hlast : last f = false)
    (hresp : respond n f = .ok out) (htakes : takes out = true) :
    answers respond last takes n (f :: rest) =
      out :: answers respond last takes (n + 1) rest := by
  simp only [answers, hlast, hresp, htakes, if_true, if_false, Bool.false_eq_true]

/-- An answer is the response to a request, and one that is taken. -/
theorem mem_answers {n : Nat} {ins : List F} {out : F}
    (h : out ∈ answers respond last takes n ins) :
    takes out = true ∧ ∃ i f, ins[i]? = some f ∧ respond (n + i) f = .ok out := by
  induction ins generalizing n with
  | nil => cases h
  | cons f rest ih =>
      unfold answers at h
      by_cases hlast : last f = true
      · rw [if_pos hlast] at h
        cases h
      · rw [if_neg hlast] at h
        cases hresp : respond n f with
        | error e =>
            rw [hresp] at h
            cases h
        | ok first =>
            rw [hresp] at h
            by_cases htakes : takes first = true
            · simp only [htakes, if_true] at h
              rcases List.mem_cons.mp h with rfl | hlater
              · exact ⟨htakes, 0, f, rfl, hresp⟩
              · obtain ⟨hout, i, g, hg, hrun⟩ := ih hlater
                refine ⟨hout, i + 1, g, hg, ?_⟩
                rw [← hrun]
                congr 1
                omega
            · simp only [htakes, if_false, Bool.false_eq_true] at h
              cases h

/-- After requests that are all answered the answers go on with the next one. -/
theorem answers_answered {n : Nat} {ins : List F}
    (h : ∀ i f, ins[i]? = some f →
      last f = false ∧ ∃ out, respond (n + i) f = .ok out ∧ takes out = true) (more : List F) :
    (answers respond last takes n ins).length = ins.length ∧
      answers respond last takes n (ins ++ more) =
        answers respond last takes n ins ++ answers respond last takes (n + ins.length) more := by
  induction ins generalizing n with
  | nil => exact ⟨rfl, rfl⟩
  | cons f rest ih =>
      obtain ⟨hlast, out, hresp, htakes⟩ := h 0 f rfl
      rw [Nat.add_zero] at hresp
      obtain ⟨hlen, happ⟩ := @ih (n + 1) fun i g hg => by
        have hnum : n + (i + 1) = n + 1 + i := by omega
        rw [← hnum]
        exact h (i + 1) g hg
      have hnum : n + (f :: rest).length = n + 1 + rest.length := by
        rw [List.length_cons]
        omega
      rw [List.cons_append, answers_cons hlast hresp htakes, answers_cons hlast hresp htakes,
        happ, hnum]
      exact ⟨by rw [List.length_cons, List.length_cons, hlen], rfl⟩

end Answers

end Duplex
