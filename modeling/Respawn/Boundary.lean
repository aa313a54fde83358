import Respawn.Sweep

/-!
# Where a purge deletes

A purge hashes the file its path leads to (`hashes_of_liveContent`), deletes objects, the
entry its path names and, where the login keychain holds the signing key, the
leftover key file; nothing else it does deletes a file (`Keeps.spared_io` and
the lemmas after it): `run_spares`.
-/

namespace Respawn

open ByteStr FileTree StateLogic

variable {X : Crates} {st : Store} {m : Machine} {S : Path → Prop}

/-! ## Programs that delete nothing -/

/-- The event deletes a file only at a place in `S`. -/
def DeletesIn (S : Path → Prop) (e : Event) : Prop := ∀ q, e = .unlink q → S q

/-- From `m` to `m'` files were deleted only at places in `S`. -/
def Machine.Spared (S : Path → Prop) (m m' : Machine) : Prop :=
  World.Extends (DeletesIn S) m.toWorld m'.toWorld

namespace Machine.Spared

variable {m₁ m₂ m₃ : Machine}

theorem refl (m : Machine) : Machine.Spared S m m := World.Extends.refl _

theorem trans (h₁ : Machine.Spared S m₁ m₂) (h₂ : Machine.Spared S m₂ m₃) :
    Machine.Spared S m₁ m₃ := World.Extends.trans h₁ h₂

theorem mono {S' : Path → Prop} (h : Machine.Spared S m₁ m₂) (hS : ∀ q, S q → S' q) :
    Machine.Spared S' m₁ m₂ :=
  World.Extends.mono h fun _ he q hq => hS q (he q hq)

/-- What was deleted since. -/
theorem mem_since {q : Path} (h : Machine.Spared S m₁ m₂)
    (hq : Event.unlink q ∈ m₁.since m₂) : S q := by
  obtain ⟨_, evs, htrace, _, hevs⟩ := h
  unfold Machine.since at hq
  rw [htrace, List.drop_left] at hq
  exact hevs _ hq q rfl

end Machine.Spared

/-- The run of a call deletes nothing. -/
theorem spared_of_events {P : Event → Prop} {w w' : World} (h : World.Extends P w w')
    (hP : ∀ e, P e → ∀ q, e ≠ .unlink q) : World.Extends (DeletesIn S) w w' :=
  h.mono fun e he q hq => absurd hq (hP e he q)

/-- Making directories deletes nothing. -/
theorem createDirAll_spares (p : Path) (w : World) :
    After (createDirAll p w) (fun _ w' => World.Extends (DeletesIn S) w w')
      (fun _ w' => World.Extends (DeletesIn S) w w') := by
  have hmade : ∀ w', MadeSome w w' → World.Extends (DeletesIn S) w w' := by
    intro w' h
    apply spared_of_events h.events
    rintro e ⟨q, rfl⟩ q'
    simp
  exact createDirAll_made.mono (fun _ w' h => hmade w' h.1) fun _ w' h => hmade w' h

theorem spares_perform {e : Event} {w : World} (he : ∀ q, e ≠ .unlink q) :
    World.Extends (DeletesIn S) w (w.perform e) :=
  World.Extends.perform fun q hq => absurd hq (he q)

/-- Opening to append deletes nothing. -/
theorem openAppend_spares (p : Path) (w : World) :
    After (openAppend p w) (fun _ w' => World.Extends (DeletesIn S) w w')
      (fun _ w' => World.Extends (DeletesIn S) w w') := by
  cases h : openAppend p w with
  | error e w' =>
      rw [openAppend_error h]
      exact World.Extends.refl w
  | ok q w' =>
      obtain ⟨_, ⟨_, rfl⟩ | ⟨_, rfl⟩⟩ := openAppend_ok h
      · exact World.Extends.refl w'
      · exact spares_perform (by simp)

theorem writeAll_spares (q : Path) (data : Bytes) (w : World) :
    After (writeAll q data w) (fun _ w' => World.Extends (DeletesIn S) w w')
      (fun _ w' => World.Extends (DeletesIn S) w w') :=
  spares_perform (e := .write q data w.clock) (by simp)

/-- Writing a file deletes nothing. -/
theorem writeFile_spares (p : Path) (data : Bytes) (w : World) :
    After (writeFile p data w) (fun _ w' => World.Extends (DeletesIn S) w w')
      (fun _ w' => World.Extends (DeletesIn S) w w') := by
  unfold writeFile
  apply After.bind (P := fun _ w₁ => World.Extends (DeletesIn S) w w₁)
  · unfold openTruncate
    have hopen := openAppend_spares (S := S) p w
    cases h : openAppend p w with
    | error e w' =>
        rw [h] at hopen
        exact hopen
    | ok q w' =>
        rw [h] at hopen
        exact World.Extends.trans hopen (spares_perform (by simp))
  · intro q w₁ h₁
    exact (writeAll_spares q data w₁).mono (fun _ _ h => h₁.trans h) fun _ _ h => h₁.trans h

/-- Creating a file deletes nothing. -/
theorem createNew_spares (p : Path) (mode : Nat) (w : World) :
    After (createNew p mode w) (fun _ w' => World.Extends (DeletesIn S) w w')
      (fun _ w' => World.Extends (DeletesIn S) w w') := by
  cases h : createNew p mode w with
  | error e w' =>
      rw [createNew_error h]
      exact World.Extends.refl w
  | ok q w' =>
      obtain ⟨_, _, rfl⟩ := createNew_ok h
      exact spares_perform (by simp)

/-- A rename within the set deletes nothing outside it. -/
theorem rename_spares (p q : Path) (w : World) :
    After (rename p q w) (fun _ w' => World.Extends (DeletesIn S) w w')
      (fun _ w' => World.Extends (DeletesIn S) w w') := by
  cases h : rename p q w with
  | error e w' =>
      rw [rename_error h]
      exact World.Extends.refl w
  | ok u w' =>
      obtain ⟨_, _, _, _, _, _, _, rfl⟩ := rename_ok h
      exact spares_perform (by simp)

/-- A call that deletes nothing, in a program. -/
theorem Keeps.spared_io {α : Type} {k : Kernel α}
    (hk : ∀ w, After (k w) (fun _ w' => World.Extends (DeletesIn S) w w')
      (fun _ w' => World.Extends (DeletesIn S) w w')) : Keeps (Machine.Spared S m) (io k) := by
  intro m₁ h₁
  apply after_io
  exact (hk m₁.toWorld).mono (fun _ _ h => World.Extends.trans h₁ h)
    fun _ _ h => World.Extends.trans h₁ h

/-- Appending a line deletes nothing. -/
theorem appendLine_spares (path : Path) (line : Bytes) :
    Keeps (Machine.Spared S m) (Store.appendLine path line) := by
  unfold Store.appendLine
  apply (Keeps.spared_io (openAppend_spares path)).bind
  intro f
  apply (Keeps.spared_io (writeAll_spares f line)).bind
  intro _
  exact Keeps.spared_io (writeAll_spares f [10])

/-- Replacing a file deletes nothing but its temporary file. -/
theorem replaceFile_spares (tag : Bytes) (path : Path) (data : Bytes) :
    Keeps (Machine.Spared S m) (Store.replaceFile tag path data) := by
  unfold Store.replaceFile
  apply (Keeps.spared_io (createDirAll_spares _)).bind
  intro _
  apply Keeps.bind (x := tmpPath path.dropLast tag) fun _ h => h
  intro tmp
  apply (Keeps.spared_io (createNew_spares tmp defaultMode)).bind
  intro f
  apply (Keeps.spared_io (writeAll_spares f data)).bind
  intro _
  exact Keeps.spared_io (rename_spares tmp path)

/-- Recording an event deletes nothing. -/
theorem Audit.record_spares (event detail : Bytes) :
    Keeps (Machine.Spared S m) (Audit.record X st event detail) := by
  unfold Audit.record
  apply (Keeps.spared_io (createDirAll_spares _)).bind
  intro _
  apply Keeps.bind (x := get) fun _ h => h
  intro m₁
  exact appendLine_spares _ _

/-- Reading or minting the identity deletes nothing. -/
theorem Anchor.fabricId_spares : Keeps (Machine.Spared S m) (Anchor.fabricId st) := by
  unfold Anchor.fabricId
  apply Keeps.look.bind
  intro found
  cases found with
  | ok s => exact Keeps.pure _
  | error e =>
      apply Keeps.ite
      · apply Keeps.bind
        · intro m₁ h₁
          unfold randomHex32
          split <;> exact h₁
        · intro id
          exact (replaceFile_spares _ _ _).bind fun _ => Keeps.pure _
      · exact fun _ h => h

/-! ## The signing key -/

namespace Keychain

/-- The key file, where the keychain goes first. -/
def Leftover (st : Store) (k : Keychain) (q : Path) : Prop :=
  q = secretPath st ∧ k.macos = true ∧ k.disabled = false

/-- Removing the secret file deletes nothing else. -/
theorem removeSecret_spares (hreal : st.Real m.fs) :
    After (ignore (removeFile (secretPath st)) m)
      (fun _ => Machine.Spared (fun q => q = secretPath st) m)
      (fun _ => Machine.Spared (fun q => q = secretPath st) m) := by
  have hnames := Purge.record_names hreal (n := str "anchor.secret") (by decide)
  show Machine.Spared (fun q => q = secretPath st) m
    { m with toWorld := finalState (removeFile (secretPath st) m.toWorld) }
  cases h : removeFile (secretPath st) m.toWorld with
  | error e w =>
      rw [removeFile_error h]
      exact Machine.Spared.refl m
  | ok u w =>
      obtain ⟨q, _, hres, _, rfl⟩ := removeFile_ok h
      have hq : q = secretPath st := hreal.resolve_eq (List.prefix_append _ _) hnames hres
      apply World.Extends.perform
      intro q' heq
      cases heq
      exact hq

/-- Moving the key into the keychain deletes the key file at most. -/
theorem migrate_spares (id : Bytes) (raw : Secret) (hreal : st.Real m.fs) :
    After (migrate st id raw m) (fun _ => Machine.Spared (fun q => q = secretPath st) m)
      (fun _ => Machine.Spared (fun q => q = secretPath st) m) := by
  unfold migrate
  apply After.bind (P := fun _ (m₁ : Machine) => m₁.toWorld = m.toWorld)
  · unfold itemSet
    split <;> rfl
  intro stored m₁ hw
  have hsame : Machine.Spared (fun q => q = secretPath st) m m₁ := by
    unfold Machine.Spared
    rw [hw]
    exact World.Extends.refl _
  cases stored with
  | error e => exact hsame
  | ok u =>
      have hreal₁ : st.Real m₁.fs := by rw [hw]; exact hreal
      apply After.bind ((removeSecret_spares hreal₁).mono (fun _ _ h => hsame.trans h)
        fun _ _ h => hsame.trans h)
      intro _ _ h
      exact h

/-- So does looking for the key in the file. -/
theorem fallBack_spares (id : Bytes) (kcErr : Option Bytes) (hreal : st.Real m.fs) :
    After (fallBack st id kcErr m) (fun _ => Machine.Spared (fun q => q = secretPath st) m)
      (fun _ => Machine.Spared (fun q => q = secretPath st) m) := by
  have hsame := Machine.Spared.refl (S := fun q => q = secretPath st) m
  unfold fallBack
  apply After.bind (P := fun _ m₁ => m₁ = m)
  · exact after_look (fun _ _ => rfl) fun _ _ => hsame
  intro found m₁ hm₁
  subst hm₁
  cases found with
  | some raw => exact migrate_spares id raw hreal
  | none =>
      cases kcErr with
      | some e => exact hsame
      | none => exact hsame

/-- **Looking up the key** deletes at most the key file, and that only where
the keychain goes first. -/
theorem get_spares (hreal : st.Real m.fs) :
    After (get st m) (fun _ => Machine.Spared (Leftover st m.keychain) m)
      (fun _ => Machine.Spared (Leftover st m.keychain) m) := by
  have hsame := Machine.Spared.refl (S := Leftover st m.keychain) m
  unfold get
  split
  case _ hfirst =>
    obtain ⟨hmac, hable⟩ := hfirst
    have hleft : ∀ q, q = secretPath st → Leftover st m.keychain q := fun q hq =>
      ⟨hq, hmac, by simpa using hable⟩
    unfold getFromKeychain
    apply After.bind (P := fun _ m₁ => st.Real m₁.fs ∧ Machine.Spared (Leftover st m.keychain) m m₁)
    · have hid : After (Anchor.fabricId st m) _ _ := Anchor.fabricId_after hreal
      have hspared : After (Anchor.fabricId st m) _ _ := Anchor.fabricId_spares m hsame
      cases h : Anchor.fabricId st m with
      | ok id m₁ =>
          rw [h] at hid hspared
          exact ⟨hid.real, hspared⟩
      | error e m₁ =>
          rw [h] at hspared
          exact hspared
    intro id m₁ h₁
    obtain ⟨hreal₁, hspared⟩ := h₁
    have hthen : ∀ x : Sys (Secret × Placement × Option Bytes),
        After (x m₁) (fun _ => Machine.Spared (fun q => q = secretPath st) m₁)
          (fun _ => Machine.Spared (fun q => q = secretPath st) m₁) →
        After (x m₁) (fun _ => Machine.Spared (Leftover st m.keychain) m)
          (fun _ => Machine.Spared (Leftover st m.keychain) m) :=
      fun x h => h.mono (fun _ _ h' => hspared.trans (h'.mono hleft))
        fun _ _ h' => hspared.trans (h'.mono hleft)
    simp only [bind_apply, get_apply]
    cases itemGet id m₁.keychain with
    | error e => exact hthen _ (fallBack_spares id _ hreal₁)
    | ok found =>
        cases found with
        | none => exact hthen _ (fallBack_spares id _ hreal₁)
        | some raw => exact hthen _ ((removeSecret_spares hreal₁).bind fun _ _ h => h)
  · unfold getFromFile
    apply After.bind (P := fun _ m₁ => m₁ = m)
    · exact after_look (fun _ _ => rfl) fun _ _ => hsame
    intro found m₁ hm₁
    subst hm₁
    cases found with
    | some raw => exact hsame
    | none => exact hsame

end Keychain

/-! ## The purge -/

namespace Purge

variable {root live : Path} {rel : Bytes} {p : Plan}

/-- The place of an object. -/
def IsObject (st : Store) (q : Path) : Prop := ∃ c, q = st.objectPath c

/-- The file that is opened to hash the live content. -/
def Hashes (live : Path) (fs : Fs) (q : Path) : Prop :=
  fs.isFile live = true ∧ fs.resolve true live = .ok q

/-- The live content is the hash of that file. -/
theorem hashes_of_liveContent {fs : Fs} {h : Hash} (hlive : liveContent X live fs = .ok (some h)) :
    ∃ q d, Hashes live fs q ∧ fs.get q = some (.file d) ∧ h = X.blake3 d.bytes := by
  unfold liveContent at hlive
  split at hlive
  case _ hfile =>
    cases hres : fs.resolve true live with
    | error e => simp [Fs.isFile, Fs.metadata, hres] at hfile
    | ok q =>
        cases hx : fs.get q with
        | none => simp [Fs.isFile, Fs.metadata, hres, hx] at hfile
        | some x =>
            cases x with
            | file d =>
                simp only [Fs.read, Fs.metadata, hres, hx] at hlive
                exact ⟨q, d, ⟨hfile, hres⟩, hx, (Option.some.inj (Except.ok.inj hlive)).symm⟩
            | dir => simp [Fs.isFile, Fs.metadata, hres, hx] at hfile
            | symlink t => simp [Fs.isFile, Fs.metadata, hres, hx] at hfile
  · cases hlive

/-- A sweep deletes objects. -/
theorem sweep_spares {elsewhere chunks : List Hash} {counts : Nat × Nat} (hreal : st.Real m.fs) :
    After (sweep st elsewhere chunks counts m) (fun _ => Machine.Spared (IsObject st) m)
      (fun _ => Machine.Spared (IsObject st) m) := by
  induction chunks generalizing counts m with
  | nil => exact Machine.Spared.refl m
  | cons ch rest ih =>
      obtain ⟨removed, shared⟩ := counts
      unfold sweep
      by_cases hshared : ch ∈ elsewhere
      · rw [if_pos hshared]
        exact ih hreal
      · rw [if_neg hshared, bind_apply, look_get]
        simp only
        by_cases hpresent : st.hasObject m.fs ch = true
        · rw [if_pos hpresent]
          apply After.bind (P := fun _ m₁ => st.Real m₁.fs ∧ Machine.Spared (IsObject st) m m₁)
          · apply after_io
            cases hremove : removeFile (st.objectPath ch) m.toWorld with
            | error e w =>
                rw [removeFile_error hremove]
                exact Machine.Spared.refl m
            | ok u w =>
                obtain ⟨q, x, hres, hleaf, rfl⟩ := removeFile_ok hremove
                have hq : q = st.objectPath ch := hreal.resolve_eq (List.prefix_append _ _)
                  (Store.fanPath_names hreal (by decide) ch) hres
                refine ⟨(Store.Touched.of_unlink (S := fun q => q = st.objectPath ch) hreal hleaf
                  hq).real, ?_⟩
                apply World.Extends.perform
                intro q' heq
                cases heq
                exact ⟨ch, hq⟩
          · intro _ m₁ h₁
            obtain ⟨hreal₁, hspared⟩ := h₁
            exact (ih hreal₁).mono (fun _ _ h => hspared.trans h) fun _ _ h => hspared.trans h
        · rw [if_neg hpresent]
          exact ih hreal

/-- Removing the live file deletes the entry its path names. -/
theorem removeLive_spares (live : Path) (m : Machine) :
    After (removeLive live m) (fun _ => Machine.Spared (fun q => m.fs.resolve false live = .ok q) m)
      (fun _ => Machine.Spared (fun q => m.fs.resolve false live = .ok q) m) := by
  have hsame := Machine.Spared.refl (S := fun q => m.fs.resolve false live = .ok q) m
  unfold removeLive
  rw [bind_apply, look_get]
  simp only
  split
  · apply After.bind (P := fun _ =>
      Machine.Spared (fun q => m.fs.resolve false live = .ok q) m)
    · apply after_io
      cases hremove : removeFile live m.toWorld with
      | error e w =>
          rw [removeFile_error hremove]
          exact hsame
      | ok u w =>
          obtain ⟨q, _, hres, _, rfl⟩ := removeFile_ok hremove
          apply World.Extends.perform
          intro q' heq
          cases heq
          exact hres
    · intro _ _ h
      exact h
  · exact hsame

/-- The certificate deletes nothing but a leftover key file. -/
theorem certify_spares (p : Plan) (counts : Nat × Nat) (ts : Nat) (hreal : st.Real m.fs) :
    After (certify X st p counts ts m)
      (fun _ => Machine.Spared (Keychain.Leftover st m.keychain) m)
      (fun _ => Machine.Spared (Keychain.Leftover st m.keychain) m) := by
  unfold certify
  apply After.bind (Keychain.get_spares hreal)
  intro key m₁ h₁
  obtain ⟨raw, placement, note⟩ := key
  refine (Keeps.look.bind fun tip => Anchor.fabricId_spares.bind fun fabricId => ?_) m₁ h₁
  apply (Keeps.spared_io (createDirAll_spares _)).bind
  intro _
  apply Keeps.bind (x := tmpPath (purgesDir st) (str "purge")) fun _ h => h
  intro tmp
  apply (Keeps.spared_io (writeFile_spares tmp _)).bind
  intro _
  exact (Keeps.spared_io (rename_spares tmp _)).bind fun _ => Keeps.pure _

theorem bury_spares (p : Plan) (ts : Nat) : Keeps (Machine.Spared S m) (bury X st p ts) := by
  unfold bury
  exact (Keeps.spared_io (createDirAll_spares _)).bind fun _ => appendLine_spares _ _

/-- Once the sweep is over, the entry that the path names and a leftover key
file are deleted. -/
theorem finish_spares {counts : Nat × Nat} {text : Bytes} (hreal : st.Real m.fs)
    (htext : m.fs.HasText (tombstonePath st) text) :
    After (finish X st root p counts m)
      (fun _ => Machine.Spared (fun q => m.fs.resolve false (p.rel.under root) = .ok q ∨
        Keychain.Leftover st m.keychain q) m)
      (fun _ => Machine.Spared (fun q => m.fs.resolve false (p.rel.under root) = .ok q ∨
        Keychain.Leftover st m.keychain q) m) := by
  obtain ⟨w, d, hbury, hreal₁, hget, _, hframe⟩ : ∃ w d, bury X st p (unixSecs m.clock) m =
      .ok () { m with toWorld := w } ∧ _ := bury_ok hreal htext
  have hburied := (bury_spares p (unixSecs m.clock) m
    (Machine.Spared.refl (S := fun q => m.fs.resolve false (p.rel.under root) = .ok q ∨
      Keychain.Leftover st m.keychain q) m)).ok hbury
  -- the path still leads where it led
  have hshape := sameShape_of_buried htext hget hframe
  unfold finish
  rw [bind_apply, get_apply]
  simp only
  rw [bind_apply, hbury]
  simp only
  have hgone := removeLive_spares (p.rel.under root) { m with toWorld := w }
  have hstep : After (removeLive (p.rel.under root) { m with toWorld := w }) _ _ :=
    removeLive_after hreal₁
  apply After.bind (P := fun _ m₂ => st.Real m₂.fs ∧ m₂.keychain = m.keychain ∧
    Machine.Spared (fun q => m.fs.resolve false (p.rel.under root) = .ok q ∨
      Keychain.Leftover st m.keychain q) m m₂)
  · have hlead : ∀ q, w.fs.resolve false (p.rel.under root) = .ok q →
        m.fs.resolve false (p.rel.under root) = .ok q ∨ Keychain.Leftover st m.keychain q :=
      fun q hq => Or.inl (Fs.resolve_shape hshape.symm hq)
    cases h : removeLive (p.rel.under root) { m with toWorld := w } with
    | error e m₂ =>
        rw [h] at hgone
        exact hburied.trans (Machine.Spared.mono hgone hlead)
    | ok b m₂ =>
        rw [h] at hgone hstep
        obtain ⟨htouched, _, _, hran⟩ := hstep
        exact ⟨htouched.real, hran.keychain, hburied.trans (Machine.Spared.mono hgone hlead)⟩
  intro liveRemoved m₂ h₂
  obtain ⟨hreal₂, hkeychain, hspared⟩ := h₂
  have hcertify : After (certify X st p counts (unixSecs m.clock) m₂) _ _ :=
    certify_spares p counts (unixSecs m.clock) hreal₂
  rw [hkeychain] at hcertify
  apply After.bind (hcertify.mono (fun _ _ h => hspared.trans (h.mono fun _ hq => Or.inr hq))
    fun _ _ h => hspared.trans (h.mono fun _ hq => Or.inr hq))
  intro cert m₃ h₃
  exact (Audit.record_spares _ _).bind (fun _ => Keeps.pure _) m₃ h₃

/-- **What a purge deletes**, whether it succeeds or not: objects, the entry
its path names, and a leftover key file. -/
theorem run_spares (X : Crates) (st : Store) (order : List Hash → List Hash) (root : Path)
    {r : RelPath} (hreal : st.Real m.fs) (hrel : sanitizeRel rel = .ok r) :
    Machine.Spared (fun q => IsObject st q ∨ m.fs.resolve false (r.under root) = .ok q ∨
      Keychain.Leftover st m.keychain q) m (finalState (run X st order root rel m)) := by
  apply After.final (P := Machine.Spared _ m)
  unfold run
  cases hplan : plan X st root rel m.fs with
  | error e =>
      rw [bind_apply, look_eq_error.mpr ⟨hplan, rfl⟩]
      exact Machine.Spared.refl m
  | ok p =>
      rw [bind_apply, look_eq_ok.mpr ⟨hplan, rfl⟩]
      simp only
      obtain ⟨hrel', _⟩ := plan_eq_ok hplan
      have hr : p.rel = r := Except.ok.inj (hrel'.symm.trans hrel)
      subst hr
      obtain ⟨text, htext⟩ := hasText_of_plan hreal hplan
      have hsweep : After (sweep st p.elsewhere (order p.chunks) (0, 0) m) _ _ :=
        sweep_spares hreal
      have hafter : After (sweep st p.elsewhere (order p.chunks) (0, 0) m) _ _ := sweep_after hreal
      cases hdone : sweep st p.elsewhere (order p.chunks) (0, 0) m with
      | error e m₁ =>
          rw [hdone] at hsweep
          rw [bind_apply, hdone]
          exact Machine.Spared.mono hsweep fun _ hq => Or.inl hq
      | ok counts m₁ =>
          rw [hdone] at hsweep
          obtain ⟨hswept, hran⟩ := hafter.ok hdone
          have hlead : ∀ q, m₁.fs.resolve false (p.rel.under root) = .ok q →
              m.fs.resolve false (p.rel.under root) = .ok q :=
            fun q => Fs.resolve_shape (hswept.sameShape hreal).symm
          have hfinish : After (finish X st root p counts m₁) _ _ :=
            finish_spares hswept.touched.real (hswept.hasText htext)
          rw [bind_apply, hdone]
          rw [hran.keychain] at hfinish
          have hstart := Machine.Spared.mono hsweep fun q hq => (Or.inl hq : IsObject st q ∨
            m.fs.resolve false (p.rel.under root) = .ok q ∨ Keychain.Leftover st m.keychain q)
          apply hfinish.mono
          · intro _ _ h
            exact hstart.trans (h.mono fun q hq => Or.inr (hq.imp_left (hlead q)))
          · intro _ _ h
            exact hstart.trans (h.mono fun q hq => Or.inr (hq.imp_left (hlead q)))

end Purge

end Respawn
