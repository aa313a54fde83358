import Respawn.Runs

/-!
# Invariants of runs

A property of a fabric lasts over every run of commands when the operations that
commands are made of keep it.  Most of them keep it because they do not touch
what it speaks of: `Framed` is a property of the record with one name, `Lasting`
adds the operations that may touch this record.  What a revert writes, a guarded
program does and `revert --actor` or `purge` removes is the caller's choice, so
`Spares` and `Unswept` ask of the command that none of it hits the record.

* `Lasting.after` — one command, whatever its outcome;
* `Lasting.run` — any run.
-/

namespace Respawn

open ByteStr FileTree StateLogic

/-- A node of the fabric's record with this name. -/
def Store.Under (st : Store) (n : Name) (q : Path) : Prop := ∃ rest, q = st.fabricDir ++ n :: rest

namespace Cli

variable (F : FleetCrates) (st : Store) (n : Name)

/-- A property of machines with a real fabric that only depends on the record
with this name. -/
structure Framed (I : Machine → Prop) : Prop where
  real : ∀ {m}, I m → st.Real m.fs
  frame : ∀ {m m'}, I m → st.Real m'.fs → (∀ q, st.Under n q → m'.fs.get q = m.fs.get q) → I m'

/-- A property that the operations keep, those that may touch the record
included.  The lock, the note of the newest order and temporary files are no
records of this kind. -/
structure Lasting (I : Machine → Prop) : Prop extends Framed st n I where
  aside : n ∉ [str "lock", str "fleet_seen", str "tmp"] ∧ n.head? ≠ some 46
  create : ∀ message actor,
    Keeps I (Snapshot.createFromActor F.toCrates st st.root message actor)
  head : ∀ id, Keeps I (st.setHead id)
  record : ∀ event detail, Keeps I (Audit.record F.toCrates st event detail)
  pull : ∀ addr peer, Keeps I (Sync.pull F.toCrates st addr peer)
  accept : ∀ orderPath, Keeps I (Fleet.accept F st orderPath)
  bury : ∀ p ts, Keeps I (Purge.bury F.toCrates st p ts)
  certify : ∀ p counts ts, Keeps I (Purge.certify F.toCrates st p counts ts)

/-- The command removes nothing of the record, neither as the path of an actor
nor as the file that a path to purge leads to. -/
structure Spares (c : Command) (m : Machine) : Prop where
  actor : ∀ p, Removes F st c m p → ∀ q, Spells st.root p q → ¬ st.Under n q
  live : ∀ order rel r s, c = .purge order rel → st.tryLock m = .ok () s →
    sanitizeRel rel = .ok r → ∀ q, s.fs.resolve false (r.under st.root) = .ok q →
      ¬ st.Under n q

/-- The command, run from `m`, gets to sweeping these chunks in the state `s`. -/
def Sweeps (c : Command) (m s : Machine) (p : Purge.Plan) (chunks : List Hash) : Prop :=
  ∃ order rel, c = .purge order rel ∧ st.tryLock m = .ok () s ∧
    Purge.plan F.toCrates st st.root rel s.fs = .ok p ∧ chunks = order p.chunks

/-- Nor does it sweep objects that the property speaks of. -/
def Unswept (I : Machine → Prop) (c : Command) (m : Machine) : Prop :=
  ∀ s p chunks, Sweeps F st c m s p chunks → I s →
    After (Purge.sweep st p.elsewhere chunks (0, 0) s) (fun _ => I) (fun _ => I)

variable {F st n} {I : Machine → Prop} {m s : Machine} {c : Command}

/-! ## Operations that touch other records -/

namespace Framed

variable (hI : Framed st n I)

include hI

theorem of_touched (h : I m) (htouched : st.Touched (fun q => ¬ st.Under n q) m.fs s.fs) : I s :=
  hI.frame h htouched.real fun q hq => htouched.frame q (not_not.mpr hq)

/-- A computation that touches nothing of the name keeps the property. -/
theorem keeps_of_touching {α : Type} {S : Path → Prop} {x : Sys α} (hx : st.Touching S x)
    (hS : ∀ q, S q → ¬ st.Under n q) : Keeps I x := by
  intro m h
  exact (hx m (hI.real h)).mono (fun _ _ ht => hI.of_touched h (ht.mono hS))
    fun _ _ ht => hI.of_touched h (ht.mono hS)

/-- A computation that keeps to other names keeps the property. -/
theorem keeps {α : Type} {names : List Name} {x : Sys α} (hx : st.Touching (st.Within names) x)
    (hn : n ∉ names) (hdot : n.head? ≠ some 46) : Keeps I x := by
  apply hI.keeps_of_touching hx
  intro q hq hunder
  obtain ⟨rest, rfl⟩ := hunder
  exact Store.not_within hn hdot hq

/-- The sweep of a purge keeps what is not said of the objects. -/
theorem sweep (elsewhere chunks : List Hash) (counts : Nat × Nat) (hn : n ≠ str "objects") :
    Keeps I (Purge.sweep st elsewhere chunks counts) := by
  have hobjects : ∀ g, ¬ st.Under n (st.objectPath g) := by
    intro g hunder
    obtain ⟨rest, heq⟩ := hunder
    exact hn (List.cons.inj (List.append_cancel_left heq)).1.symm
  have hkept : ∀ {chunks : List Hash} {m m' : Machine}, I m → Purge.Swept st chunks m.fs m'.fs →
      I m' := by
    intro chunks m m' h hswept
    apply hI.of_touched h (hswept.touched.mono _)
    intro q hq
    obtain ⟨g, _, rfl⟩ := hq
    exact hobjects g
  intro m h
  apply (Purge.sweep_after (hI.real h)).mono
  · intro _ m' hdone
    exact hkept h hdone.1
  · intro _ m' hstop
    obtain ⟨_, _, _, _, hswept, _⟩ := hstop
    exact hkept h hswept

theorem unswept (hn : n ≠ str "objects") : Unswept F st I c m :=
  fun _ _ _ _ h => hI.sweep _ _ _ hn _ h

/-- Burying a path keeps what is not said of the ledger. -/
theorem bury (X : Crates) (p : Purge.Plan) (ts : Nat) (hn : n ≠ str "purged.jsonl") :
    Keeps I (Purge.bury X st p ts) := by
  intro m h
  have hreal := hI.real h
  have hother : ∀ q, q = tombstonePath st → ¬ st.Under n q := by
    intro q hq hunder
    obtain ⟨rest, heq⟩ := hunder
    exact hn (List.cons.inj (List.append_cancel_left (hq.symm.trans heq))).1.symm
  unfold Purge.bury
  apply After.bind (P := fun _ m₁ => m₁ = m)
  · apply after_io
    rw [createDirAll_of_dir hreal.dir]
    rfl
  intro _ m₁ hm₁
  subst hm₁
  apply (Store.Touched.of_appendLine (S := fun q => q = tombstonePath st) hreal
    (List.prefix_append _ _) (Purge.record_names hreal (by decide)) rfl).mono
  · intro _ _ ht
    exact hI.of_touched h (ht.mono hother)
  · intro _ m₂ hfs
    exact hI.frame h (hfs ▸ hreal) fun q _ => by rw [hfs]

/-- A certificate is made aside from the records that `Store.Aside` leaves out. -/
theorem certify (X : Crates) (p : Purge.Plan) (counts : Nat × Nat) (ts : Nat)
    (hn : n ∈ Store.recordNames) : Keeps I (Purge.certify X st p counts ts) := by
  have haside : ∀ q, st.Aside q → ¬ st.Under n q := by
    intro q hq hunder
    obtain ⟨rest, rfl⟩ := hunder
    exact Store.not_aside hn hq
  intro m h
  exact (Purge.certify_after (hI.real h)).mono
    (fun _ _ ht => hI.of_touched h (ht.mono haside))
    fun _ _ ht => hI.of_touched h (ht.mono haside)

/-- Accepting an order keeps what is not said of the identity. -/
theorem accept (F : FleetCrates) (orderPath : Path) (hn : n ≠ str "fabric_id")
    (hdot : n.head? ≠ some 46) : Keeps I (Fleet.accept F st orderPath) := by
  have hkept : ∀ {m m' : Machine}, I m → st.Touched (st.Within [str "fabric_id"]) m.fs m'.fs →
      I m' := by
    intro m m' h ht
    apply hI.of_touched h (ht.mono _)
    intro q hq hunder
    obtain ⟨rest, rfl⟩ := hunder
    exact Store.not_within (by simpa using hn) hdot hq
  intro m h
  exact (Fleet.accept_after (hI.real h)).mono (fun _ _ ht => hkept h ht.1)
    fun _ _ ht => hkept h ht

end Framed

/-! ## Lasting properties -/

namespace Lasting

variable (hI : Lasting F st n I)

include hI

theorem ne : n ≠ str "lock" ∧ n ≠ str "fleet_seen" ∧ n ≠ str "tmp" := by
  have h := hI.aside.1
  simp only [List.mem_cons, List.not_mem_nil, or_false, not_or] at h
  exact h

theorem lock : Keeps I st.tryLock :=
  hI.keeps Store.tryLock_touching (by simpa using hI.ne.1) hI.aside.2

theorem note (data : Bytes) : Keeps I (io (writeFile (Fleet.seenPath st) data)) :=
  hI.keeps Fleet.note_touching (by simpa using hI.ne.2.1) hI.aside.2

/-- What happens outside the fabric does not matter. -/
theorem outside (h : I m) (hsame : ∀ q, st.fabricDir <+: q → s.fs.get q = m.fs.get q) : I s := by
  have hreal := hI.real h
  refine hI.frame h ⟨?_, ?_⟩ ?_
  · rw [hsame _ (List.prefix_refl _)]
    exact hreal.dir
  · intro q t hq ht
    exact hreal.links q t hq (hsame q hq ▸ ht)
  · intro q hq
    obtain ⟨rest, rfl⟩ := hq
    exact hsame _ (List.prefix_append _ _)

/-- Nor does a revert whose manifest has no path inside the fabric. -/
theorem misses {mf : Manifest} {fs : Fs} (hout : Revert.Outside st mf.files) (q : Path)
    (hq : Revert.Touches st mf.files fs q) : ¬ st.Under n q := by
  intro hunder
  obtain ⟨rest, rfl⟩ := hunder
  obtain ⟨tail, heq⟩ := Revert.tmp_of_touches hout hq (List.prefix_append _ _)
  have hcons : st.fabricDir ++ str "tmp" :: tail = st.fabricDir ++ n :: rest := by
    rw [← heq, Revert.tmpDir, List.append_assoc]
    rfl
  exact hI.ne.2.2 (List.cons.inj (List.append_cancel_left hcons)).1.symm

/-- Applying a manifest outside the fabric keeps the property. -/
theorem apply {mf : Manifest} {keepExtra : Bool} (hout : Revert.Outside st mf.files) (h : I m) :
    After (Revert.apply F.toCrates st st.root mf keepExtra m) (fun _ => I) (fun _ => I) :=
  (Revert.apply_touches (hI.real h)).mono
    (fun _ _ ht => hI.of_touched h (ht.mono fun q hq => hI.misses hout q hq))
    fun _ _ ht => hI.of_touched h (ht.mono fun q hq => hI.misses hout q hq)

/-- So does a checked revert to a manifest outside the fabric. -/
theorem checkThenApply {mf : Manifest} {keepExtra force : Bool}
    (hout : Revert.Passes F.toCrates st force m.fs → Revert.Outside st mf.files) (h : I m) :
    After (Revert.checkThenApply F.toCrates st st.root mf keepExtra force m)
      (fun _ => I) (fun _ => I) :=
  (Revert.checkThenApply_touched (S := fun q => ¬ st.Under n q) (hI.real h)
    fun hpasses q hq => hI.misses (hout hpasses) q hq).mono
      (fun _ _ ht => hI.of_touched h ht) fun _ _ ht => hI.of_touched h ht

/-! ## Commands -/

/-- So does a snap. -/
theorem snap (message : Bytes) (actor : Option Bytes) :
    Keeps I (Cli.snap F.toCrates st message actor) := by
  unfold Cli.snap
  apply hI.lock.bind
  intro _
  apply (hI.create message actor).bind
  intro id
  apply (hI.record _ _).bind
  intro _
  exact Keeps.pure _

/-- So does a pull. -/
theorem pulled (addr : Bytes) (peer : Sync.Peer) :
    Keeps I (Cli.pull F.toCrates st addr peer) := by
  unfold Cli.pull
  apply hI.lock.bind
  intro _
  apply (hI.pull addr peer).bind
  intro r
  cases r.remoteHead with
  | none => exact Keeps.pure _
  | some h =>
      apply (hI.record _ _).bind
      intro _
      exact Keeps.pure _

/-- What a guarded run does once its program has ended. -/
theorem settle {argv : List Bytes} {policy : Guard.RevertPolicy} {fullDrift : Bool} {snap : Hash}
    {status : Guard.ExitStatus} (h : I m)
    (hout : ∀ mf report, Snapshot.load F.toCrates st m.fs snap = .ok mf →
      Drift.detect F.toCrates st.root mf fullDrift m.fs = .ok report →
      Guard.shouldRevert policy status = true → Revert.Outside st mf.files) :
    After (Guard.settle F.toCrates st argv policy fullDrift snap status m)
      (fun _ => I) (fun _ => I) := by
  unfold Guard.settle
  apply after_look_bind _ fun _ _ => h
  intro mf hload
  apply after_look_bind _ fun _ _ => h
  intro report hdetect
  cases hpolicy : Guard.shouldRevert policy status with
  | false =>
      apply After.bind (hI.record _ _ m h)
      intro _ _ h₁
      exact h₁
  | true =>
      apply After.bind (hI.apply (hout mf report hload hdetect hpolicy) h)
      intro _ m₁ h₁
      apply After.bind (hI.head _ m₁ h₁)
      intro _ m₂ h₂
      apply After.bind (hI.record _ _ m₂ h₂)
      intro _ _ h₃
      exact h₃

/-- So does a guarded run. -/
theorem guard {argv : List Bytes} {policy : Guard.RevertPolicy} {fullDrift : Bool}
    {child : Guard.Child} (h : I m)
    (hc : Decent F st (.guard argv policy fullDrift child) m) :
    After (Guard.run F.toCrates st argv policy fullDrift child m) (fun _ => I) (fun _ => I) := by
  by_cases hargv : argv = []
  · unfold Guard.run
    rw [if_pos hargv]
    exact h
  rw [Guard.run_eq hargv, bind_apply]
  cases hlock : st.tryLock m with
  | error e m₁ => exact (hI.lock m h).error hlock
  | ok u m₁ =>
      have h₁ := (hI.lock m h).ok hlock
      apply after_look_bind _ fun _ _ => h₁
      intro prevHead _
      rw [bind_apply]
      cases hcreate : Snapshot.createFromActor F.toCrates st st.root
          (str "guard: " ++ Guard.joinWords argv) none m₁ with
      | error e before => exact (hI.create _ _ m₁ h₁).error hcreate
      | ok snap before =>
          obtain ⟨mf, m₂, hbuild, hstore⟩ := bind_eq_ok.mp hcreate
          have h₂ := (hI.create _ _ m₁ h₁).ok hcreate
          simp only
          rw [bind_apply]
          cases hspawn : Guard.spawn child before with
          | error e left =>
              unfold Guard.spawn at hspawn
              split at hspawn <;> cases hspawn
          | ok spawned left =>
              rcases spawn_cases hspawn with ⟨e, rfl, rfl⟩ | ⟨status, rfl⟩
              · apply After.bind (hI.head prevHead _ h₂)
                intro _ _ h₃
                exact h₃
              · have hphases : Guard.Phases F.toCrates st argv child m m₁ m₂ before left mf
                    snap status := ⟨hlock, hbuild, hstore, hspawn⟩
                have h₃ : I left := hI.outside h₂
                  (hc.guarded _ _ _ _ _ _ _ _ _ _ _ rfl hphases)
                exact hI.settle h₃ fun mf' report hload hdetect hpolicy =>
                  hc.applied _ _ _ (.guard hargv hphases hload hdetect hpolicy)

/-- So does a revert. -/
theorem revert {reference : Bytes} {keepExtra force : Bool} (h : I m)
    (hc : Decent F st (.revert reference keepExtra force) m) :
    After (Cli.revert F.toCrates st reference keepExtra force m) (fun _ => I) (fun _ => I) := by
  unfold Cli.revert
  rw [bind_apply]
  cases hlock : st.tryLock m with
  | error e m₁ => exact (hI.lock m h).error hlock
  | ok u m₁ =>
      have h₁ := (hI.lock m h).ok hlock
      apply after_look_bind _ fun _ _ => h₁
      intro id hresolve
      apply after_look_bind _ fun _ _ => h₁
      intro mf hload
      apply After.bind (hI.checkThenApply (fun hpasses =>
        hc.applied _ _ keepExtra (.revert hlock hresolve hload hpasses)) h₁)
      intro checked m₂ h₂
      apply After.bind (granted_after fun _ => h₂)
      intro r m₃ hm₃
      subst hm₃
      apply After.bind (hI.head _ m₃ h₂)
      intro _ m₄ h₃
      apply After.bind (hI.record _ _ m₄ h₃)
      intro _ _ h₄
      exact h₄

/-- Removing the paths of an actor, none of which leads into the record. -/
theorem removeActorPaths {vm : Manifest} {touched : List Bytes} (h : I m)
    (hmiss : ∀ p ∈ touched, p ∉ vm.files.map FileEntry.path →
      ∀ q, Spells st.root p q → ¬ st.Under n q) :
    After (Cli.removeActorPaths st vm touched m) (fun _ => I) (fun _ => I) :=
  (Cli.removeActorPaths_touched (S := fun q => ¬ st.Under n q) (hI.real h) hmiss).mono
    (fun _ _ ht => hI.of_touched h ht) fun _ _ ht => hI.of_touched h ht

/-- So does undoing an actor that spares the name. -/
theorem revertActor {actor : Bytes} {force : Bool} (h : I m)
    (hc : Decent F st (.revertActor actor force) m)
    (hspares : Spares F st n (.revertActor actor force) m) :
    After (Cli.revertActor F.toCrates st actor force m) (fun _ => I) (fun _ => I) := by
  unfold Cli.revertActor
  rw [bind_apply]
  cases hlock : st.tryLock m with
  | error e m₁ => exact (hI.lock m h).error hlock
  | ok u m₁ =>
      have h₁ := (hI.lock m h).ok hlock
      apply after_look_bind _ fun _ _ => h₁
      intro surgical hplan
      obtain ⟨vm, touched⟩ := surgical
      have hchecked : After (Revert.checkThenApply F.toCrates st st.root vm true force m₁)
          (fun _ => I) (fun _ => I) :=
        hI.checkThenApply (fun hpasses => hc.applied _ _ true (.revertActor hlock hplan hpasses)) h₁
      simp only
      rw [bind_apply]
      cases happly : Revert.checkThenApply F.toCrates st st.root vm true force m₁ with
      | error e m₂ => exact hchecked.error happly
      | ok checked m₂ =>
          have h₂ := hchecked.ok happly
          obtain ⟨report, applied⟩ := checked
          cases applied with
          | none => exact h₂
          | some r =>
              simp only
              apply After.bind (P := fun _ (m₃ : Machine) => m₃ = m₂)
              · exact granted_after fun _ => h₂
              intro _ m₃ hm₃
              subst hm₃
              apply After.bind (hI.removeActorPaths h₂ fun p hp hnot => hspares.actor p
                ⟨_, _, _, _, _, _, _, _, rfl, hlock, hplan, happly, hp, hnot⟩)
              intro _ m₄ h₃
              apply After.bind (hI.create _ _ m₄ h₃)
              intro id m₅ h₄
              apply After.bind (hI.record _ _ m₅ h₄)
              intro _ _ h₅
              exact h₅

/-- So does applying an order. -/
theorem fleetApply {orderPath : Path} {source : Option (Bytes × Sync.Peer)} {force : Bool}
    (h : I m) (hc : Decent F st (.fleetApply orderPath source force) m) :
    After (Cli.fleetApply F st orderPath source force m) (fun _ => I) (fun _ => I) := by
  unfold Cli.fleetApply Fleet.apply
  rw [bind_apply]
  cases hlock : st.tryLock m with
  | error e m₁ => exact (hI.lock m h).error hlock
  | ok u m₁ =>
      have h₁ := (hI.lock m h).ok hlock
      simp only
      rw [bind_apply]
      cases haccept : Fleet.accept F st orderPath m₁ with
      | error e m₂ => exact (hI.accept _ m₁ h₁).error haccept
      | ok a m₂ =>
          have h₂ := (hI.accept _ m₁ h₁).ok haccept
          simp only
          rw [bind_apply]
          have hfetched : Keeps I (Fleet.fetchTarget F st a.target source) := by
            unfold Fleet.fetchTarget
            apply Keeps.look.bind
            intro present
            cases present with
            | true => exact Keeps.pure _
            | false =>
                cases source with
                | none => exact fun _ h => h
                | some peer =>
                    apply (hI.pull _ _).bind
                    intro _
                    exact Keeps.pure _
          cases hfetch : Fleet.fetchTarget F st a.target source m₂ with
          | error e m₃ => exact (hfetched m₂ h₂).error hfetch
          | ok _ m₃ =>
              have h₃ := (hfetched m₂ h₂).ok hfetch
              simp only
              unfold Fleet.land
              apply after_look_bind _ fun _ _ => h₃
              intro mf hload
              apply After.bind (hI.checkThenApply (fun hpasses =>
                hc.applied _ _ false (.fleetApply hlock haccept hfetch hload hpasses)) h₃)
              intro checked m₄ h₄
              apply After.bind (P := fun _ (m₅ : Machine) => m₅ = m₄)
              · obtain ⟨_, applied⟩ := checked
                cases applied with
                | none => exact h₄
                | some _ => exact rfl
              intro _ m₅ hm₅
              subst hm₅
              apply After.bind (hI.head _ m₅ h₄)
              intro _ m₆ h₅
              apply After.bind (hI.note _ m₆ h₅)
              intro _ m₇ h₆
              apply After.bind (hI.record _ _ m₇ h₆)
              intro _ _ h₇
              exact h₇

/-- What `purge` does once its sweep is over. -/
theorem finish {p : Purge.Plan} {counts : Nat × Nat} {text : Bytes} (h : I m)
    (htext : m.fs.HasText (tombstonePath st) text)
    (hlive : ∀ fs, Fs.SameShape m.fs fs → ∀ q, fs.resolve false (p.rel.under st.root) = .ok q →
      ¬ st.Under n q) :
    After (Purge.finish F.toCrates st st.root p counts m) (fun _ => I) (fun _ => I) := by
  obtain ⟨w, d, hbury, hreal, hget, hbytes, hframe⟩ : ∃ w d,
      Purge.bury F.toCrates st p (unixSecs m.clock) m = .ok () { m with toWorld := w } ∧ _ :=
    Purge.bury_ok (hI.real h) htext
  have h₁ : I { m with toWorld := w } := (hI.bury p _ m h).ok hbury
  have hshape : Fs.SameShape m.fs w.fs := Purge.sameShape_of_buried htext hget hframe
  unfold Purge.finish
  rw [bind_apply, get_apply]
  simp only
  rw [bind_apply, hbury]
  simp only
  apply After.bind (P := fun _ m₂ => I m₂)
  · apply (Purge.removeLive_after (m := { m with toWorld := w }) hreal).mono
    · intro _ m₂ hremoved
      exact hI.of_touched h₁ (hremoved.1.mono fun q hq => hlive w.fs hshape q hq)
    · intro _ m₂ hnone
      rw [hnone.1]
      exact h₁
  intro liveRemoved m₂ h₂
  apply After.bind (hI.certify _ _ _ m₂ h₂)
  intro cert m₃ h₃
  obtain ⟨certPath, note⟩ := cert
  apply After.bind (hI.record _ _ m₃ h₃)
  intro _ _ h₄
  exact h₄

/-- So does a purge that spares the name and sweeps nothing of it. -/
theorem purge {order : List Hash → List Hash} {rel : Bytes} (h : I m)
    (hspares : Spares F st n (.purge order rel) m)
    (hunswept : Unswept F st I (.purge order rel) m) :
    After (Cli.purge F.toCrates st order rel m) (fun _ => I) (fun _ => I) := by
  unfold Cli.purge
  rw [bind_apply]
  cases hlock : st.tryLock m with
  | error e m₁ => exact (hI.lock m h).error hlock
  | ok u m₁ =>
      have h₁ := (hI.lock m h).ok hlock
      simp only
      unfold Purge.run
      apply after_look_bind _ fun _ _ => h₁
      intro p hplan
      obtain ⟨hrel, _⟩ := Purge.plan_eq_ok hplan
      obtain ⟨text, htext⟩ := Purge.hasText_of_plan (hI.real h₁) hplan
      have hkept := hunswept m₁ p (order p.chunks) ⟨order, rel, rfl, hlock, hplan, rfl⟩ h₁
      have hafter : After (Purge.sweep st p.elsewhere (order p.chunks) (0, 0) m₁) _ _ :=
        Purge.sweep_after (hI.real h₁)
      rw [bind_apply]
      cases hsweep : Purge.sweep st p.elsewhere (order p.chunks) (0, 0) m₁ with
      | error e m₂ => exact hkept.error hsweep
      | ok counts m₂ =>
          obtain ⟨hswept, _⟩ := hafter.ok hsweep
          apply hI.finish (hkept.ok hsweep) (hswept.hasText htext)
          -- neither the sweep nor the tombstone changes where the path leads
          intro fs hshape q hq
          exact hspares.live order rel p.rel m₁ rfl hlock hrel q
            (Fs.resolve_shape ((hswept.sameShape (hI.real h₁)).trans hshape).symm hq)

/-- **One command** keeps the property, whatever its outcome. -/
theorem after (h : I m) (hc : Decent F st c m) (hspares : Spares F st n c m)
    (hunswept : Unswept F st I c m) : I (c.after F st m) := by
  cases c with
  | snap message actor => exact (hI.snap message actor m h).final
  | guard argv policy fullDrift child => exact (hI.guard h hc).final
  | revert reference keepExtra force => exact (hI.revert h hc).final
  | revertActor actor force => exact (hI.revertActor h hc hspares).final
  | fleetApply orderPath source force => exact (hI.fleetApply h hc).final
  | pull addr peer => exact (hI.pulled addr peer m h).final
  | purge order rel => exact (hI.purge h hspares hunswept).final

/-- **A run** of commands that spare the record keeps the property. -/
theorem run {P : Command → Machine → Prop} {m₀ : Machine}
    (hP : ∀ c m, P c m → Decent F st c m ∧ Spares F st n c m ∧ Unswept F st I c m)
    (hrun : Runs F st P m₀ m) (h : I m₀) : I m := by
  induction hrun with
  | start => exact h
  | command c run hc ih =>
      obtain ⟨hdecent, hspares, hunswept⟩ := hP _ _ hc
      exact hI.after ih hdecent hspares hunswept
  | edit run houtside ih => exact hI.outside ih houtside

end Lasting

end Cli

end Respawn
