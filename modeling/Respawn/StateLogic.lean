import Mathlib.Logic.Basic

/-!
# Reasoning about programs that can fail

A program that reads and changes a state and may stop with an error is an
`EStateM ε σ α`: on an error the state reached so far is kept.  `After r Q E`
says what holds of the outcome `r`: `Q` of the value and state of a success,
`E` of the error and state of a failure.  The rules follow the program text:
one for a sequence, one for each loop, and one that weakens a conclusion.

`forEach` runs a body over a list and `collect` also gathers what the body
yields; both stop at the first error.  Their rules ask for an invariant that
the body keeps.
-/

namespace StateLogic

variable {ε σ α β : Type}

/-- The state an outcome ends in. -/
def finalState : EStateM.Result ε σ α → σ
  | .ok _ s => s
  | .error _ s => s

/-- Did the computation succeed? -/
def succeeded : EStateM.Result ε σ α → Bool
  | .ok _ _ => true
  | .error _ _ => false

/-- A run that succeeded has a value. -/
theorem exists_of_succeeded {r : EStateM.Result ε σ α} (h : succeeded r = true) :
    ∃ a, r = .ok a (finalState r) := by
  cases r with
  | ok a s => exact ⟨a, rfl⟩
  | error e s => cases h

/-- A run that did not succeed has an error. -/
theorem exists_of_failed {r : EStateM.Result ε σ α} (h : succeeded r = false) :
    ∃ e, r = .error e (finalState r) := by
  cases r with
  | ok a s => cases h
  | error e s => exact ⟨e, rfl⟩

/-- A run without a value that succeeded. -/
theorem eq_ok_of_succeeded {r : EStateM.Result ε σ Unit} (h : succeeded r = true) :
    r = .ok () (finalState r) := by
  cases r with
  | ok a s => rfl
  | error e s => cases h

/-- What the computation yields, if it succeeds. -/
def returned : EStateM.Result ε σ α → Option α
  | .ok a _ => some a
  | .error _ _ => none

/-- A run that returned a value. -/
theorem eq_ok_of_returned {r : EStateM.Result ε σ α} {a : α} (h : returned r = some a) :
    r = .ok a (finalState r) := by
  cases r with
  | ok b s => rw [Option.some.inj h]; rfl
  | error e s => cases h

/-- Did the computation succeed with this value? -/
def yields [DecidableEq α] (a : α) : EStateM.Result ε σ α → Bool
  | .ok b _ => decide (b = a)
  | .error _ _ => false

/-- A run that yields a value. -/
theorem eq_ok_of_yields [DecidableEq α] {r : EStateM.Result ε σ α} {a : α}
    (h : yields a r = true) : r = .ok a (finalState r) := by
  cases r with
  | ok b s => rw [of_decide_eq_true h]; rfl
  | error e s => cases h

theorem eq_ok_of_toOption {r : Except ε α} {a : α} (h : r.toOption = some a) : r = .ok a := by
  cases r with
  | ok b => exact congrArg Except.ok (Option.some.inj h)
  | error e => cases h

/-- `Q` holds after a success and `E` after a failure. -/
def After (r : EStateM.Result ε σ α) (Q : α → σ → Prop) (E : ε → σ → Prop) : Prop :=
  match r with
  | .ok a s => Q a s
  | .error e s => E e s

@[simp] theorem after_ok {a : α} {s : σ} {Q : α → σ → Prop} {E : ε → σ → Prop} :
    After (.ok a s) Q E ↔ Q a s := Iff.rfl

@[simp] theorem after_error {e : ε} {s : σ} {Q : α → σ → Prop} {E : ε → σ → Prop} :
    After (.error e s : EStateM.Result ε σ α) Q E ↔ E e s := Iff.rfl

/-- What is known of an outcome may be weakened. -/
theorem After.mono {r : EStateM.Result ε σ α} {Q Q' : α → σ → Prop} {E E' : ε → σ → Prop}
    (h : After r Q E) (hQ : ∀ a s, Q a s → Q' a s) (hE : ∀ e s, E e s → E' e s) :
    After r Q' E' := by
  cases r with
  | ok a s => exact hQ a s h
  | error e s => exact hE e s h

/-- What holds when it succeeded. -/
theorem After.ok {r : EStateM.Result ε σ α} {Q : α → σ → Prop} {E : ε → σ → Prop} {a : α} {s : σ}
    (h : After r Q E) (hr : r = .ok a s) : Q a s := by
  rw [hr] at h
  exact h

/-- What holds when it failed. -/
theorem After.error {r : EStateM.Result ε σ α} {Q : α → σ → Prop} {E : ε → σ → Prop} {e : ε}
    {s : σ} (h : After r Q E) (hr : r = .error e s) : E e s := by
  rw [hr] at h
  exact h

/-- What holds after either outcome holds of the final state. -/
theorem After.final {r : EStateM.Result ε σ α} {P : σ → Prop}
    (h : After r (fun _ => P) (fun _ => P)) : P (finalState r) := by
  cases r <;> exact h

@[simp] theorem pure_apply (a : α) (s : σ) :
    (pure a : EStateM ε σ α) s = .ok a s := rfl

@[simp] theorem get_apply (s : σ) : (get : EStateM ε σ σ) s = .ok s s := rfl

theorem bind_apply (x : EStateM ε σ α) (f : α → EStateM ε σ β) (s : σ) :
    (x >>= f) s = match x s with
      | .ok a s' => f a s'
      | .error e s' => .error e s' := rfl

/-- A sequence succeeds when both its parts do. -/
theorem bind_eq_ok {x : EStateM ε σ α} {f : α → EStateM ε σ β} {s t : σ} {b : β} :
    (x >>= f) s = .ok b t ↔ ∃ a s', x s = .ok a s' ∧ f a s' = .ok b t := by
  rw [bind_apply]
  cases x s <;> simp [and_assoc]

/-- A sequence fails when one of its parts does. -/
theorem bind_eq_error {x : EStateM ε σ α} {f : α → EStateM ε σ β} {s t : σ} {e : ε} :
    (x >>= f) s = .error e t ↔
      x s = .error e t ∨ ∃ a s', x s = .ok a s' ∧ f a s' = .error e t := by
  rw [bind_apply]
  cases x s <;> simp [and_assoc]

/-- The rule of sequence. -/
theorem After.bind {x : EStateM ε σ α} {f : α → EStateM ε σ β} {s : σ}
    {P : α → σ → Prop} {Q : β → σ → Prop} {E : ε → σ → Prop}
    (hx : After (x s) P E) (hf : ∀ a s', P a s' → After (f a s') Q E) :
    After ((x >>= f) s) Q E := by
  rw [bind_apply]
  cases hr : x s with
  | ok a s' =>
      rw [hr] at hx
      exact hf a s' hx
  | error e s' =>
      rw [hr] at hx
      exact hx

/-- What holds before the program holds after it, whatever its outcome. -/
def Keeps (I : σ → Prop) (x : EStateM ε σ α) : Prop :=
  ∀ s, I s → After (x s) (fun _ => I) (fun _ => I)

namespace Keeps

variable {I : σ → Prop}

theorem pure (a : α) : Keeps I (pure a : EStateM ε σ α) := fun _ h => h

theorem bind {x : EStateM ε σ α} {f : α → EStateM ε σ β} (hx : Keeps I x)
    (hf : ∀ a, Keeps I (f a)) : Keeps I (x >>= f) := by
  intro s hs
  exact After.bind (hx s hs) fun a s' hs' => hf a s' hs'

/-- A branch keeps what both its sides keep. -/
theorem ite {c : Prop} [Decidable c] {x y : EStateM ε σ α} (hx : Keeps I x) (hy : Keeps I y) :
    Keeps I (if c then x else y) := by
  split
  · exact hx
  · exact hy

end Keeps

/-! ## Loops -/

/-- `for a in list { body(a)?; }` -/
def forEach : List α → (α → EStateM ε σ Unit) → EStateM ε σ Unit
  | [], _ => pure ()
  | a :: rest, body => do
      body a
      forEach rest body

/-- `for a in list` with a body that may push one result. -/
def collect : List α → (α → EStateM ε σ (Option β)) → EStateM ε σ (List β)
  | [], _ => pure []
  | a :: rest, body => do
      let out ← body a
      let outs ← collect rest body
      pure (out.toList ++ outs)

/-- `collect` for a body that only looks. -/
def scan : List α → (α → Except ε (Option β)) → Except ε (List β)
  | [], _ => .ok []
  | a :: rest, body =>
      match body a with
      | .error e => .error e
      | .ok out => match scan rest body with
        | .error e => .error e
        | .ok outs => .ok (out.toList ++ outs)

/-- A scan whose body never fails is a `filterMap`. -/
theorem scan_eq_ok {l : List α} {body : α → Except ε (Option β)} {f : α → Option β}
    (h : ∀ a ∈ l, body a = .ok (f a)) : scan l body = .ok (l.filterMap f) := by
  induction l with
  | nil => rfl
  | cons a rest ih =>
      have hrest := ih fun b hb => h b (List.mem_cons_of_mem _ hb)
      simp only [scan, h a (by simp), hrest]
      cases hf : f a <;> simp [hf]

/-- A scan that succeeds has looked at everything. -/
theorem scan_mem {l : List α} {body : α → Except ε (Option β)} {outs : List β}
    (h : scan l body = .ok outs) {a : α} (ha : a ∈ l) :
    ∃ out, body a = .ok out ∧ ∀ b, out = some b → b ∈ outs := by
  induction l generalizing outs with
  | nil => simp at ha
  | cons c rest ih =>
      unfold scan at h
      cases hc : body c with
      | error e =>
          rw [hc] at h
          cases h
      | ok out =>
          rw [hc] at h
          cases hrest : scan rest body with
          | error e =>
              simp only [hrest] at h
              cases h
          | ok outs' =>
              simp only [hrest] at h
              cases h
              rcases List.mem_cons.mp ha with rfl | hin
              · refine ⟨out, hc, ?_⟩
                intro b hb
                simp [hb]
              · obtain ⟨out', hout', hmem⟩ := ih hrest hin
                exact ⟨out', hout', fun b hb => List.mem_append_right _ (hmem b hb)⟩

/-- A loop keeps what its body keeps. -/
theorem After.forEach {l : List α} {body : α → EStateM ε σ Unit} {s : σ}
    {I : σ → Prop} {E : ε → σ → Prop} (hs : I s)
    (hbody : ∀ a ∈ l, ∀ s, I s → After (body a s) (fun _ => I) E) :
    After (StateLogic.forEach l body s) (fun _ => I) E := by
  induction l generalizing s with
  | nil => exact hs
  | cons a rest ih =>
      apply After.bind (hbody a (by simp) s hs)
      intro _ s' hs'
      exact ih hs' fun b hb => hbody b (List.mem_cons_of_mem _ hb)

/-- A collecting loop keeps what its body keeps. -/
theorem After.collect {l : List α} {body : α → EStateM ε σ (Option β)} {s : σ}
    {I : σ → Prop} {E : ε → σ → Prop} (hs : I s)
    (hbody : ∀ a ∈ l, ∀ s, I s → After (body a s) (fun _ => I) E) :
    After (StateLogic.collect l body s) (fun _ => I) E := by
  induction l generalizing s with
  | nil => exact hs
  | cons a rest ih =>
      apply After.bind (hbody a (by simp) s hs)
      intro out s' hs'
      apply After.bind (ih hs' fun b hb => hbody b (List.mem_cons_of_mem _ hb))
      intro outs s'' hs''
      exact hs''

theorem Keeps.collect {I : σ → Prop} {body : α → EStateM ε σ (Option β)} (l : List α)
    (hbody : ∀ a, Keeps I (body a)) : Keeps I (StateLogic.collect l body) :=
  fun _ hs => After.collect hs fun a _ s hs => hbody a s hs

/-- A collecting loop keeps what its body keeps of the part of the list that is
done and of the results so far. -/
theorem After.collectAcc {l : List α} {f : α → EStateM ε σ (Option β)} {s : σ}
    {I : List α → List β → σ → Prop} {E : ε → σ → Prop} {d : List α} {r : List β}
    (hs : I d r s)
    (hbody : ∀ a ∈ l, ∀ done acc s, I done acc s →
      After (f a s) (fun out => I (done ++ [a]) (acc ++ out.toList)) E) :
    After (StateLogic.collect l f s) (fun outs => I (d ++ l) (r ++ outs)) E := by
  induction l generalizing d r s with
  | nil => simpa [StateLogic.collect] using hs
  | cons a rest ih =>
      apply After.bind (hbody a (by simp) d r s hs)
      intro out s' hs'
      apply After.bind (ih hs' fun b hb => hbody b (List.mem_cons_of_mem _ hb))
      intro outs s'' hs''
      simpa [List.append_assoc] using hs''

/-- A collecting loop that succeeds has handled every beginning of its list,
and the rest from there. -/
theorem collect_append_eq_ok {l l' : List α} {body : α → EStateM ε σ (Option β)} {s t : σ}
    {outs : List β} : StateLogic.collect (l ++ l') body s = .ok outs t ↔
      ∃ outs₁ outs₂ u, StateLogic.collect l body s = .ok outs₁ u ∧
        StateLogic.collect l' body u = .ok outs₂ t ∧ outs = outs₁ ++ outs₂ := by
  induction l generalizing s outs with
  | nil =>
      constructor
      · intro h
        exact ⟨[], outs, s, rfl, h, rfl⟩
      · intro h
        obtain ⟨outs₁, outs₂, u, h₁, h₂, rfl⟩ := h
        cases h₁
        exact h₂
  | cons a rest ih =>
      constructor
      · intro h
        obtain ⟨out, s', ha, h⟩ := bind_eq_ok.mp h
        obtain ⟨tail, t', hrest, h⟩ := bind_eq_ok.mp h
        cases h
        obtain ⟨outs₁, outs₂, u, h₁, h₂, rfl⟩ := ih.mp hrest
        refine ⟨out.toList ++ outs₁, outs₂, u, ?_, h₂, by simp⟩
        exact bind_eq_ok.mpr ⟨out, s', ha, bind_eq_ok.mpr ⟨outs₁, u, h₁, rfl⟩⟩
      · intro h
        obtain ⟨outs₁', outs₂, u, h₁, h₂, rfl⟩ := h
        obtain ⟨out, s', ha, h₁⟩ := bind_eq_ok.mp h₁
        obtain ⟨outs₁, u', hrest, h₁⟩ := bind_eq_ok.mp h₁
        cases h₁
        refine bind_eq_ok.mpr ⟨out, s', ha, bind_eq_ok.mpr ⟨outs₁ ++ outs₂, t, ?_, ?_⟩⟩
        · exact ih.mpr ⟨outs₁, outs₂, u, hrest, h₂, rfl⟩
        · simp

/-- A loop that fails has got through a beginning of its list and fails at the
next element. -/
theorem collect_eq_error {l : List α} {body : α → EStateM ε σ (Option β)} {s t : σ} {e : ε}
    (h : StateLogic.collect l body s = .error e t) :
    ∃ pre a post outs u, l = pre ++ a :: post ∧
      StateLogic.collect pre body s = .ok outs u ∧ body a u = .error e t := by
  induction l generalizing s with
  | nil => cases h
  | cons a rest ih =>
      rcases bind_eq_error.mp h with hfirst | ⟨out, s', hfirst, htail⟩
      · exact ⟨[], a, rest, [], s, rfl, rfl, hfirst⟩
      · rcases bind_eq_error.mp htail with hrest | ⟨_, _, _, hpure⟩
        · obtain ⟨pre, b, post, outs, u, rfl, hpre, hb⟩ := ih hrest
          refine ⟨a :: pre, b, post, out.toList ++ outs, u, rfl, ?_, hb⟩
          exact bind_eq_ok.mpr ⟨out, s', hfirst, bind_eq_ok.mpr ⟨outs, u, hpre, rfl⟩⟩
        · cases hpure

/-- Where a loop has got through a beginning of its list, the rest decides. -/
theorem After.collectRest {l l' : List α} {body : α → EStateM ε σ (Option β)} {s u : σ}
    {outs : List β} {Q : List β → σ → Prop} {E : ε → σ → Prop}
    (h : StateLogic.collect l body s = .ok outs u)
    (hrest : After (StateLogic.collect l' body u) (fun outs' => Q (outs ++ outs')) E) :
    After (StateLogic.collect (l ++ l') body s) Q E := by
  induction l generalizing s outs Q with
  | nil =>
      cases h
      exact hrest
  | cons a l ih =>
      obtain ⟨out, s', ha, htail⟩ := bind_eq_ok.mp h
      obtain ⟨outs', t, hl, hpure⟩ := bind_eq_ok.mp htail
      cases hpure
      have hbody : After (body a s) (fun b t => b = out ∧ t = s') E := by
        rw [ha]
        exact ⟨rfl, rfl⟩
      apply After.bind hbody
      intro b t hbt
      obtain ⟨rfl, rfl⟩ := hbt
      apply After.bind (ih (Q := fun outs => Q (b.toList ++ outs)) hl (by simpa using hrest))
      intro outs'' t' hQ
      exact hQ

/-- A collecting loop keeps what its body keeps in the states the loop
reaches. -/
theorem After.collectReach {l : List α} {body : α → EStateM ε σ (Option β)} {s : σ}
    {I : σ → Prop} {E : ε → σ → Prop} (hs : I s)
    (hbody : ∀ pre a post outs t, l = pre ++ a :: post →
      StateLogic.collect pre body s = .ok outs t → I t → After (body a t) (fun _ => I) E) :
    After (StateLogic.collect l body s) (fun _ => I) E := by
  induction l generalizing s with
  | nil => exact hs
  | cons a rest ih =>
      have hfirst := hbody [] a rest [] s rfl rfl hs
      cases ha : body a s with
      | error e s' =>
          rw [ha] at hfirst
          simpa [StateLogic.collect, bind_apply, ha] using hfirst
      | ok out s' =>
          rw [ha] at hfirst
          have hrest := ih hfirst fun pre b post outs t hl hpre ht =>
            hbody (a :: pre) b post (out.toList ++ outs) t (by rw [hl]; rfl)
              (bind_eq_ok.mpr ⟨out, s', ha, bind_eq_ok.mpr ⟨outs, t, hpre, rfl⟩⟩) ht
          simp only [StateLogic.collect, bind_apply, ha]
          cases hc : StateLogic.collect rest body s' with
          | error e t => rw [hc] at hrest; exact hrest
          | ok outs t => rw [hc] at hrest; exact hrest

end StateLogic
