import Respawn.Guarded
import Respawn.Orders

/-!
# Runs of commands

A run is any sequence of commands, with edits of the worktree between them.
Commands make manifests at one place, `create`, and write the worktree at
another, `apply`; `Commits` and `Applies` say with what and in which state a
command gets there.  What a command touches is said once, for any set of paths
that covers the records it works with (`after_touched`).
-/

namespace Respawn

open ByteStr FileTree StateLogic

namespace Revert

/-- The drift gate lets a revert pass. -/
def Passes (X : Crates) (st : Store) (force : Bool) (fs : Fs) : Prop :=
  ∃ report, gateReport X st st.root fs = .ok report ∧ (dirty report && !force) = false

/-- Behind the gate a revert touches what its manifest makes it touch. -/
theorem checkThenApply_touched {X : Crates} {st : Store} {m : Machine} {S : Path → Prop}
    {mf : Manifest} {keepExtra force : Bool} (hreal : st.Real m.fs)
    (h : Passes X st force m.fs → ∀ q, Touches st mf.files m.fs q → S q) :
    After (checkThenApply X st st.root mf keepExtra force m)
      (fun _ m' => st.Touched S m.fs m'.fs) (fun _ m' => st.Touched S m.fs m'.fs) := by
  unfold checkThenApply
  apply after_look_bind
  · intro report hreport
    by_cases hgate : (dirty report && !force) = true
    · rw [if_pos hgate]
      exact Store.Touched.refl hreal
    · rw [if_neg hgate]
      have htouch := h ⟨report, hreport, Bool.eq_false_iff.mpr hgate⟩
      have happly : After (apply X st st.root mf keepExtra m)
          (fun _ m' => st.Touched S m.fs m'.fs) (fun _ m' => st.Touched S m.fs m'.fs) :=
        (apply_touches hreal).mono (fun _ _ h => h.mono htouch) fun _ _ h => h.mono htouch
      apply After.bind happly
      intro _ _ h'
      exact h'
  · intro _ _
    exact Store.Touched.refl hreal

end Revert

/-- A guarded run of a command that has words. -/
theorem Guard.run_eq {X : Crates} {st : Store} {argv : List Bytes} {policy : RevertPolicy}
    {fullDrift : Bool} {child : Child} (hargv : argv ≠ []) :
    run X st argv policy fullDrift child = (do
      st.tryLock
      let prevHead ← look st.head
      let snap ← Snapshot.createFromActor X st st.root (str "guard: " ++ joinWords argv) none
      let spawned ← spawn child
      match spawned with
      | .error e => do
          st.setHead prevHead
          throw (.io e)
      | .ok status => settle X st argv policy fullDrift snap status) := by
  unfold run
  exact if_neg hargv

/-- The note of the newest order. -/
theorem Fleet.note_touching {st : Store} {data : Bytes} :
    st.Touching (st.Within [str "fleet_seen"]) (io (writeFile (seenPath st) data)) := by
  intro m hreal
  apply after_io
  exact Store.Touched.of_writeFile hreal (List.prefix_append _ _)
    (Purge.record_names hreal (by decide)) ⟨_, [], rfl, Or.inl (by simp)⟩

namespace Cli

/-- A command with its arguments, and with what it meets outside the fabric: the
program it guards, the peer it pulls from, the order of a hash set. -/
inductive Command
  | snap (message : Bytes) (actor : Option Bytes)
  | guard (argv : List Bytes) (policy : Guard.RevertPolicy) (fullDrift : Bool)
      (child : Guard.Child)
  | revert (reference : Bytes) (keepExtra force : Bool)
  | revertActor (actor : Bytes) (force : Bool)
  | fleetApply (orderPath : Path) (source : Option (Bytes × Sync.Peer)) (force : Bool)
  | pull (addr : Bytes) (peer : Sync.Peer)
  | purge (order : List Hash → List Hash) (rel : Bytes)

variable (F : FleetCrates) (st : Store)

/-- The state that a command leaves, whatever its outcome. -/
def Command.after : Command → Machine → Machine
  | .snap message actor, m => finalState (Cli.snap F.toCrates st message actor m)
  | .guard argv policy fullDrift child, m =>
      finalState (Guard.run F.toCrates st argv policy fullDrift child m)
  | .revert reference keepExtra force, m =>
      finalState (Cli.revert F.toCrates st reference keepExtra force m)
  | .revertActor actor force, m => finalState (Cli.revertActor F.toCrates st actor force m)
  | .fleetApply orderPath source force, m =>
      finalState (Cli.fleetApply F st orderPath source force m)
  | .pull addr peer, m => finalState (Cli.pull F.toCrates st addr peer m)
  | .purge order rel, m => finalState (Cli.purge F.toCrates st order rel m)

/-- The loop of `revert --actor` that removes what only the actor made. -/
def removeActorPaths (vm : Manifest) (touched : List Bytes) : Sys Unit :=
  forEach touched fun p =>
    if p ∈ vm.files.map FileEntry.path then pure () else removeActorPath st p

/-- The command, run from `m`, calls `apply` in the state `s`. -/
inductive Applies : Command → Machine → Machine → Manifest → Bool → Prop
  | guard {argv : List Bytes} {policy : Guard.RevertPolicy} {fullDrift : Bool}
      {child : Guard.Child} {m m₁ m₂ before left : Machine} {mf mf' : Manifest} {snap : Hash}
      {status : Guard.ExitStatus} {report : Drift.DriftReport} (hargv : argv ≠ [])
      (hphases : Guard.Phases F.toCrates st argv child m m₁ m₂ before left mf snap status)
      (hload : Snapshot.load F.toCrates st left.fs snap = .ok mf')
      (hdetect : Drift.detect F.toCrates st.root mf' fullDrift left.fs = .ok report)
      (hpolicy : Guard.shouldRevert policy status = true) :
      Applies (.guard argv policy fullDrift child) m left mf' false
  | revert {reference : Bytes} {keepExtra force : Bool} {m s : Machine} {id : Hash}
      {mf : Manifest} (hlock : st.tryLock m = .ok () s)
      (hresolve : Snapshot.resolve st reference s.fs = .ok id)
      (hload : Snapshot.load F.toCrates st s.fs id = .ok mf)
      (hpasses : Revert.Passes F.toCrates st force s.fs) :
      Applies (.revert reference keepExtra force) m s mf keepExtra
  | revertActor {actor : Bytes} {force : Bool} {m s : Machine} {vm : Manifest}
      {touched : List Bytes} (hlock : st.tryLock m = .ok () s)
      (hplan : Revert.surgicalManifest F.toCrates st actor s.fs = .ok (vm, touched))
      (hpasses : Revert.Passes F.toCrates st force s.fs) :
      Applies (.revertActor actor force) m s vm true
  | fleetApply {orderPath : Path} {source : Option (Bytes × Sync.Peer)} {force : Bool}
      {m m₁ m₂ s : Machine} {a : Fleet.Accepted} {mf : Manifest}
      (hlock : st.tryLock m = .ok () m₁)
      (haccept : Fleet.accept F st orderPath m₁ = .ok a m₂)
      (hfetch : Fleet.fetchTarget F st a.target source m₂ = .ok () s)
      (hload : Snapshot.load F.toCrates st s.fs a.target = .ok mf)
      (hpasses : Revert.Passes F.toCrates st force s.fs) :
      Applies (.fleetApply orderPath source force) m s mf false

/-- The command, run from `m`, calls `create` in the state `s`. -/
inductive Creates : Command → Machine → Machine → Bytes → Option Bytes → Prop
  | snap {message : Bytes} {actor : Option Bytes} {m s : Machine}
      (hlock : st.tryLock m = .ok () s) : Creates (.snap message actor) m s message actor
  | guard {argv : List Bytes} {policy : Guard.RevertPolicy} {fullDrift : Bool}
      {child : Guard.Child} {m s : Machine} {head : Option Hash} (hargv : argv ≠ [])
      (hlock : st.tryLock m = .ok () s) (hhead : st.head s.fs = .ok head) :
      Creates (.guard argv policy fullDrift child) m s
        (str "guard: " ++ Guard.joinWords argv) none
  | revertActor {actor : Bytes} {force : Bool} {m m₁ m₂ s : Machine} {vm : Manifest}
      {touched : List Bytes} {report : Drift.DriftReport} {r : Revert.RevertReport}
      (hlock : st.tryLock m = .ok () m₁)
      (hplan : Revert.surgicalManifest F.toCrates st actor m₁.fs = .ok (vm, touched))
      (happly : Revert.checkThenApply F.toCrates st st.root vm true force m₁ =
        .ok (report, some r) m₂)
      (hremove : removeActorPaths st vm touched m₂ = .ok () s) :
      Creates (.revertActor actor force) m s
        (str "surgical undo of actor '" ++ actor ++ str "'") none

/-- The command, run from `m`, makes this manifest HEAD. -/
def Commits (c : Command) (m : Machine) (mf : Manifest) : Prop :=
  ∃ s message actor s₁ id s', Creates F st c m s message actor ∧
    Snapshot.buildManifest F.toCrates st st.root message actor s = .ok mf s₁ ∧
    Snapshot.storeManifest F.toCrates st mf s₁ = .ok id s'

/-- The command, run from `m`, gets to removing this path of an actor. -/
def Removes (c : Command) (m : Machine) (p : Bytes) : Prop :=
  ∃ actor force m₁ m₂ vm touched report r, c = .revertActor actor force ∧
    st.tryLock m = .ok () m₁ ∧
    Revert.surgicalManifest F.toCrates st actor m₁.fs = .ok (vm, touched) ∧
    Revert.checkThenApply F.toCrates st st.root vm true force m₁ = .ok (report, some r) m₂ ∧
    p ∈ touched ∧ p ∉ vm.files.map FileEntry.path

/-- No manifest that is applied has a path inside the fabric, and what the
command guards leaves the fabric alone. -/
structure Decent (c : Command) (m : Machine) : Prop where
  applied : ∀ s mf keepExtra, Applies F st c m s mf keepExtra → Revert.Outside st mf.files
  guarded : ∀ argv policy fullDrift child m₁ m₂ before left mf snap status,
    c = .guard argv policy fullDrift child →
    Guard.Phases F.toCrates st argv child m m₁ m₂ before left mf snap status →
    ∀ q, st.fabricDir <+: q → left.fs.get q = before.fs.get q

/-- A run from `m₀` to `m` of commands that each have `P` where they start.
Between them anything may happen outside the fabric. -/
inductive Runs (P : Command → Machine → Prop) (m₀ : Machine) : Machine → Prop
  | start : Runs P m₀ m₀
  | command {m : Machine} (c : Command) (run : Runs P m₀ m) (hc : P c m) :
      Runs P m₀ (c.after F st m)
  | edit {m m' : Machine} (run : Runs P m₀ m)
      (houtside : ∀ q, st.fabricDir <+: q → m'.fs.get q = m.fs.get q) : Runs P m₀ m'

/-! ## What commands touch -/

/-- The records that commands other than `purge` work with. -/
abbrev usedNames : List Name :=
  commonNames ++ Snapshot.workNames ++ [str "fabric_id", str "fleet_seen"]

/-- What lies outside the fabric, the temporary files and these records. -/
structure Covers (S : Path → Prop) : Prop where
  outside : ∀ q, ¬ st.fabricDir <+: q → S q
  tmp : ∀ q, Revert.tmpDir st <+: q → S q
  used : ∀ q, st.Within usedNames q → S q

variable {F st} {S : Path → Prop} {m : Machine}

theorem Covers.within (hS : Covers st S) {names : List Name}
    (hnames : ∀ n ∈ names, n ∈ usedNames) : ∀ q, st.Within names q → S q :=
  fun q hq => hS.used q (hq.mono hnames)

/-- What a manifest outside the fabric touches is covered. -/
theorem Covers.touches (hS : Covers st S) {files : List FileEntry} (hout : Revert.Outside st files)
    {fs : Fs} {q : Path} (h : Revert.Touches st files fs q) : S q := by
  by_cases hq : st.fabricDir <+: q
  · exact hS.tmp q (Revert.tmp_of_touches hout h hq)
  · exact hS.outside q hq

theorem Covers.create (hS : Covers st S) (message : Bytes) (actor : Option Bytes) :
    st.Touching S (Snapshot.createFromActor F.toCrates st st.root message actor) :=
  (Snapshot.createFromActor_touching _ _).mono (hS.within (by decide))

theorem Covers.lock (hS : Covers st S) : st.Touching S st.tryLock :=
  Store.tryLock_touching.mono (hS.within (by decide))

theorem Covers.setHead (hS : Covers st S) (id : Option Hash) : st.Touching S (st.setHead id) :=
  (Store.setHead_touching _).mono (hS.within (by decide))

theorem Covers.record (hS : Covers st S) (event detail : Bytes) :
    st.Touching S (Audit.record F.toCrates st event detail) :=
  (Audit.record_touching _ _).mono (hS.within (by decide))

/-- An edit outside the fabric. -/
theorem touched_of_outside (hS : ∀ q, ¬ st.fabricDir <+: q → S q) {fs fs' : Fs}
    (hreal : st.Real fs) (h : ∀ q, st.fabricDir <+: q → fs'.get q = fs.get q) :
    st.Touched S fs fs' := by
  refine ⟨⟨?_, ?_⟩, ?_⟩
  · rw [h _ (List.prefix_refl _)]
    exact hreal.dir
  · intro q t hq ht
    exact hreal.links q t hq (h q hq ▸ ht)
  · intro q hq
    exact h q (not_not.mp fun hout => hq (hS q hout))

/-- Removing the actor's paths touches what they spell. -/
theorem removeActorPaths_touched {vm : Manifest} {touched : List Bytes} (hreal : st.Real m.fs)
    (h : ∀ p ∈ touched, p ∉ vm.files.map FileEntry.path → ∀ q, Spells st.root p q → S q) :
    After (removeActorPaths st vm touched m)
      (fun _ m' => st.Touched S m.fs m'.fs) (fun _ m' => st.Touched S m.fs m'.fs) := by
  refine After.forEach (I := fun s : Machine => st.Touched S m.fs s.fs)
    (Store.Touched.refl hreal) ?_
  intro p hp s hs
  by_cases hkept : p ∈ vm.files.map FileEntry.path
  · rw [if_pos hkept]
    exact hs
  · rw [if_neg hkept]
    exact (removeActorPath_touches hs.real).mono
      (fun _ _ h' => hs.trans (h'.mono fun q hq => h p hp hkept q hq))
      fun _ _ h' => hs.trans (h'.mono fun q hq => h p hp hkept q hq)

variable (F st) in
/-- Where a command applies a manifest, guards a program or removes the path of
an actor, it touches nothing outside `S`. -/
structure Bounded (S : Path → Prop) (c : Command) (m : Machine) : Prop where
  applied : ∀ s mf keepExtra, Applies F st c m s mf keepExtra → st.Touched S m.fs s.fs →
    ∀ q, Revert.Touches st mf.files s.fs q → S q
  guarded : ∀ argv policy fullDrift child m₁ m₂ before left mf snap status,
    c = .guard argv policy fullDrift child →
    Guard.Phases F.toCrates st argv child m m₁ m₂ before left mf snap status →
    st.Real before.fs → st.Touched S before.fs left.fs
  removed : ∀ p, Removes F st c m p → ∀ q, Spells st.root p q → S q

variable {c : Command} {s : Machine}

/-- A decent command is bounded by what it may remove. -/
theorem Decent.bounded (hS : Covers st S) (hc : Decent F st c m)
    (hremoves : ∀ p, Removes F st c m p → ∀ q, Spells st.root p q → S q) :
    Bounded F st S c m := by
  refine ⟨?_, ?_, hremoves⟩
  · intro s mf keepExtra happlies _ q hq
    exact hS.touches (hc.applied s mf keepExtra happlies) hq
  · intro argv policy fullDrift child m₁ m₂ before left mf snap status hguard hphases hreal
    exact touched_of_outside hS.outside hreal
      (hc.guarded argv policy fullDrift child m₁ m₂ before left mf snap status hguard hphases)

/-! ### Where a command gets to -/

/-- What a guarded run has touched when the command is over. -/
theorem phases_touched (hS : Covers st S) {argv : List Bytes} {policy : Guard.RevertPolicy}
    {fullDrift : Bool} {child : Guard.Child} {m₁ m₂ before left : Machine}
    {mf : Manifest} {snap : Hash} {status : Guard.ExitStatus}
    (hreal : st.Real m.fs)
    (hc : Bounded F st S (.guard argv policy fullDrift child) m)
    (h : Guard.Phases F.toCrates st argv child m m₁ m₂ before left mf snap status) :
    st.Touched S m.fs left.fs := by
  have h₁ := (hS.lock m hreal).ok h.lock
  have h₂ := (hS.create (F := F) _ _ _ h₁.real).ok h.created
  exact (h₁.trans h₂).trans (hc.guarded _ _ _ _ _ _ _ _ _ _ _ rfl h h₂.real)

/-- Where a command calls `apply`. -/
theorem applies_touched (hS : Covers st S) (hreal : st.Real m.fs) (hc : Bounded F st S c m)
    {mf : Manifest} {keepExtra : Bool} (h : Applies F st c m s mf keepExtra) :
    st.Touched S m.fs s.fs := by
  cases h with
  | guard hargv hphases hload hdetect hpolicy =>
      exact phases_touched hS hreal hc hphases
  | revert hlock hresolve hload hpasses => exact (hS.lock m hreal).ok hlock
  | revertActor hlock hplan hpasses => exact (hS.lock m hreal).ok hlock
  | fleetApply hlock haccept hfetch hload hpasses =>
      have h₁ := (hS.lock m hreal).ok hlock
      have h₂ := ((Fleet.accept_after h₁.real).ok haccept).1
      have h₃ := (Fleet.fetchTarget_touching _ _ _ h₂.real).ok hfetch
      exact (h₁.trans (h₂.mono (hS.within (by decide)))).trans (h₃.mono (hS.within (by decide)))

/-- What a surgical revert has touched when it gets to the snapshot. -/
theorem revertActor_touched (hS : Covers st S) {actor : Bytes} {force : Bool} {m₁ m₂ : Machine}
    {vm : Manifest} {touched : List Bytes} {report : Drift.DriftReport}
    {r : Revert.RevertReport} (hreal : st.Real m.fs)
    (hc : Bounded F st S (.revertActor actor force) m) (hlock : st.tryLock m = .ok () m₁)
    (hplan : Revert.surgicalManifest F.toCrates st actor m₁.fs = .ok (vm, touched))
    (happly : Revert.checkThenApply F.toCrates st st.root vm true force m₁ =
      .ok (report, some r) m₂) : st.Touched S m.fs m₂.fs := by
  have h₁ := (hS.lock m hreal).ok hlock
  refine h₁.trans ((Revert.checkThenApply_touched h₁.real ?_).ok happly)
  intro hpasses q hq
  exact hc.applied _ _ _ (.revertActor hlock hplan hpasses) h₁ q hq

/-- Where a command calls `create`. -/
theorem creates_touched (hS : Covers st S) (hreal : st.Real m.fs) (hc : Bounded F st S c m)
    {message : Bytes} {actor : Option Bytes} (h : Creates F st c m s message actor) :
    st.Touched S m.fs s.fs := by
  cases h with
  | snap hlock => exact (hS.lock m hreal).ok hlock
  | guard hargv hlock hhead => exact (hS.lock m hreal).ok hlock
  | revertActor hlock hplan happly hremove =>
      have h₂ := revertActor_touched hS hreal hc hlock hplan happly
      refine h₂.trans ((removeActorPaths_touched h₂.real ?_).ok hremove)
      intro p hp hnot
      exact hc.removed p ⟨_, _, _, _, _, _, _, _, rfl, hlock, hplan, happly, hp, hnot⟩

/-! ### Whole commands -/

/-- A snap touches what commands touch. -/
theorem snap_touched (hS : Covers st S) (hreal : st.Real m.fs) (message : Bytes)
    (actor : Option Bytes) :
    st.Touched S m.fs ((Command.snap message actor).after F st m).fs :=
  ((snap_touching message actor m hreal).mono (fun _ _ h => h.mono (hS.within (by decide)))
    fun _ _ h => h.mono (hS.within (by decide))).final

/-- A pull touches what commands touch. -/
theorem pull_touched (hS : Covers st S) (hreal : st.Real m.fs) (addr : Bytes)
    (peer : Sync.Peer) : st.Touched S m.fs ((Command.pull addr peer).after F st m).fs := by
  have hpull : st.Touching S (pull F.toCrates st addr peer) := by
    unfold pull
    apply hS.lock.bind
    intro _
    apply ((Sync.pull_touching _ _).mono (hS.within (by decide))).bind
    intro r
    cases r.remoteHead with
    | none => exact Store.Touching.pure _
    | some h =>
        apply (hS.record _ _).bind
        intro _
        exact Store.Touching.pure _
  exact (hpull m hreal).final

/-- What a guarded run touches once the command has ended. -/
theorem settle_touched (hS : Covers st S) (hreal : st.Real m.fs) {argv : List Bytes}
    {policy : Guard.RevertPolicy} {fullDrift : Bool} {snap : Hash} {status : Guard.ExitStatus}
    (happlied : ∀ mf report, Snapshot.load F.toCrates st m.fs snap = .ok mf →
      Drift.detect F.toCrates st.root mf fullDrift m.fs = .ok report →
      Guard.shouldRevert policy status = true → ∀ q, Revert.Touches st mf.files m.fs q → S q) :
    After (Guard.settle F.toCrates st argv policy fullDrift snap status m)
      (fun _ m' => st.Touched S m.fs m'.fs) (fun _ m' => st.Touched S m.fs m'.fs) := by
  have hsame := Store.Touched.refl (S := S) hreal
  unfold Guard.settle
  apply after_look_bind
  · intro mf hload
    apply after_look_bind
    · intro report hdetect
      cases hpolicy : Guard.shouldRevert policy status with
      | false =>
          apply After.bind (hS.record _ _ m hreal)
          intro _ _ h
          exact h
      | true =>
          have htouch := happlied mf report hload hdetect hpolicy
          have happly : After (Revert.apply F.toCrates st st.root mf false m)
              (fun _ m' => st.Touched S m.fs m'.fs) (fun _ m' => st.Touched S m.fs m'.fs) :=
            (Revert.apply_touches hreal).mono (fun _ _ h => h.mono htouch)
              fun _ _ h => h.mono htouch
          apply After.bind happly
          intro _ m₁ h₁
          apply After.bind (h₁.andThen (hS.setHead (some snap)) fun _ hq => hq)
          intro _ m₂ h₂
          apply After.bind (h₂.andThen (hS.record _ _) fun _ hq => hq)
          intro _ _ h₃
          exact h₃
    · intro _ _
      exact hsame
  · intro _ _
    exact hsame

/-- A command that is run, or cannot be started. -/
theorem spawn_cases {child : Guard.Child} {spawned : Except Errno Guard.ExitStatus}
    {left : Machine} (h : Guard.spawn child m = .ok spawned left) :
    (∃ e, spawned = .error e ∧ left = m) ∨ ∃ status, spawned = .ok status := by
  unfold Guard.spawn at h
  split at h
  · cases h
    exact Or.inr ⟨_, rfl⟩
  · cases h
    exact Or.inl ⟨_, rfl, rfl⟩

/-- So does a guarded run. -/
theorem guard_touched (hS : Covers st S) (hreal : st.Real m.fs) {argv : List Bytes}
    {policy : Guard.RevertPolicy} {fullDrift : Bool} {child : Guard.Child}
    (hc : Bounded F st S (.guard argv policy fullDrift child) m) :
    st.Touched S m.fs ((Command.guard argv policy fullDrift child).after F st m).fs := by
  apply After.final (P := fun m' : Machine => st.Touched S m.fs m'.fs)
  by_cases hargv : argv = []
  · unfold Guard.run
    rw [if_pos hargv]
    exact Store.Touched.refl hreal
  rw [Guard.run_eq hargv, bind_apply]
  cases hlock : st.tryLock m with
  | error e m₁ => exact (hS.lock m hreal).error hlock
  | ok u m₁ =>
      have h₁ := (hS.lock m hreal).ok hlock
      apply after_look_bind
      · intro prevHead _
        rw [bind_apply]
        cases hcreate : Snapshot.createFromActor F.toCrates st st.root
            (str "guard: " ++ Guard.joinWords argv) none m₁ with
        | error e before => exact h₁.trans ((hS.create _ _ _ h₁.real).error hcreate)
        | ok snap before =>
            obtain ⟨mf, m₂, hbuild, hstore⟩ := bind_eq_ok.mp hcreate
            have h₂ := h₁.trans ((hS.create (F := F) _ _ _ h₁.real).ok hcreate)
            simp only
            rw [bind_apply]
            cases hspawn : Guard.spawn child before with
            | error e left =>
                unfold Guard.spawn at hspawn
                split at hspawn <;> cases hspawn
            | ok spawned left =>
                rcases spawn_cases hspawn with ⟨e, rfl, rfl⟩ | ⟨status, rfl⟩
                · apply After.bind (h₂.andThen (hS.setHead prevHead) fun _ hq => hq)
                  intro _ _ h₃
                  exact h₃
                · have hphases : Guard.Phases F.toCrates st argv child m m₁ m₂ before left mf
                      snap status := ⟨hlock, hbuild, hstore, hspawn⟩
                  have h₃ := phases_touched hS hreal hc hphases
                  have hsettle : After (Guard.settle F.toCrates st argv policy fullDrift snap
                      status left) _ _ := settle_touched hS h₃.real fun mf' report hload hdetect
                        hpolicy => hc.applied _ _ _
                          (.guard hargv hphases hload hdetect hpolicy) h₃
                  exact hsettle.mono (fun _ _ h => h₃.trans h) fun _ _ h => h₃.trans h
      · intro _ _
        exact h₁

/-- So does a revert. -/
theorem revert_touched (hS : Covers st S) (hreal : st.Real m.fs) {reference : Bytes}
    {keepExtra force : Bool} (hc : Bounded F st S (.revert reference keepExtra force) m) :
    st.Touched S m.fs ((Command.revert reference keepExtra force).after F st m).fs := by
  apply After.final (P := fun m' : Machine => st.Touched S m.fs m'.fs)
  unfold Cli.revert
  rw [bind_apply]
  cases hlock : st.tryLock m with
  | error e m₁ => exact (hS.lock m hreal).error hlock
  | ok u m₁ =>
      have h₁ := (hS.lock m hreal).ok hlock
      apply after_look_bind
      · intro id hresolve
        apply after_look_bind
        · intro mf hload
          have hchecked : After (Revert.checkThenApply F.toCrates st st.root mf keepExtra force m₁)
              _ _ := Revert.checkThenApply_touched h₁.real fun hpasses q hq =>
            hc.applied _ _ _ (.revert hlock hresolve hload hpasses) h₁ q hq
          apply After.bind (hchecked.mono (fun _ _ h => h₁.trans h) fun _ _ h => h₁.trans h)
          intro checked m₂ h₂
          apply After.bind (granted_after fun _ => h₂)
          intro r m₃ hm₃
          subst hm₃
          apply After.bind (h₂.andThen (hS.setHead (some id)) fun _ hq => hq)
          intro _ m₄ h₃
          apply After.bind (h₃.andThen (hS.record _ _) fun _ hq => hq)
          intro _ _ h₄
          exact h₄
        · intro _ _
          exact h₁
      · intro _ _
        exact h₁

/-- So does undoing an actor. -/
theorem revertActor_after_touched (hS : Covers st S) (hreal : st.Real m.fs) {actor : Bytes}
    {force : Bool} (hc : Bounded F st S (.revertActor actor force) m) :
    st.Touched S m.fs ((Command.revertActor actor force).after F st m).fs := by
  apply After.final (P := fun m' : Machine => st.Touched S m.fs m'.fs)
  unfold Cli.revertActor
  rw [bind_apply]
  cases hlock : st.tryLock m with
  | error e m₁ => exact (hS.lock m hreal).error hlock
  | ok u m₁ =>
      have h₁ := (hS.lock m hreal).ok hlock
      apply after_look_bind
      · intro surgical hplan
        obtain ⟨vm, touched⟩ := surgical
        have hchecked : After (Revert.checkThenApply F.toCrates st st.root vm true force m₁)
            _ _ := Revert.checkThenApply_touched h₁.real fun hpasses q hq =>
          hc.applied _ _ _ (.revertActor hlock hplan hpasses) h₁ q hq
        simp only
        rw [bind_apply]
        cases happly : Revert.checkThenApply F.toCrates st st.root vm true force m₁ with
        | error e m₂ => exact h₁.trans (hchecked.error happly)
        | ok checked m₂ =>
            have h₂ := h₁.trans (hchecked.ok happly)
            obtain ⟨report, applied⟩ := checked
            cases applied with
            | none => exact h₂
            | some r =>
                simp only
                apply After.bind (P := fun _ (m₃ : Machine) => m₃ = m₂)
                · exact granted_after fun _ => h₂
                intro _ m₃ hm₃
                subst hm₃
                have hremoved : After (removeActorPaths st vm touched m₃) _ _ :=
                  removeActorPaths_touched h₂.real fun p hp hnot => hc.removed p
                    ⟨_, _, _, _, _, _, _, _, rfl, hlock, hplan, happly, hp, hnot⟩
                apply After.bind (hremoved.mono (fun _ _ h => h₂.trans h) fun _ _ h => h₂.trans h)
                intro _ m₄ h₃
                apply After.bind (h₃.andThen (hS.create _ _) fun _ hq => hq)
                intro id m₅ h₄
                apply After.bind (h₄.andThen (hS.record _ _) fun _ hq => hq)
                intro _ _ h₅
                exact h₅
      · intro _ _
        exact h₁

/-- So does applying an order. -/
theorem fleetApply_touched (hS : Covers st S) (hreal : st.Real m.fs) {orderPath : Path}
    {source : Option (Bytes × Sync.Peer)} {force : Bool}
    (hc : Bounded F st S (.fleetApply orderPath source force) m) :
    st.Touched S m.fs ((Command.fleetApply orderPath source force).after F st m).fs := by
  apply After.final (P := fun m' : Machine => st.Touched S m.fs m'.fs)
  unfold Cli.fleetApply Fleet.apply
  rw [bind_apply]
  cases hlock : st.tryLock m with
  | error e m₁ => exact (hS.lock m hreal).error hlock
  | ok u m₁ =>
      have h₁ := (hS.lock m hreal).ok hlock
      simp only
      rw [bind_apply]
      cases haccept : Fleet.accept F st orderPath m₁ with
      | error e m₂ =>
          exact h₁.trans (((Fleet.accept_after h₁.real).error haccept).mono
            (hS.within (by decide)))
      | ok a m₂ =>
          have h₂ := h₁.trans (((Fleet.accept_after h₁.real).ok haccept).1.mono
            (hS.within (by decide)))
          have hfetched := Fleet.fetchTarget_touching (F := F) a.target source m₂ h₂.real
          simp only
          rw [bind_apply]
          cases hfetch : Fleet.fetchTarget F st a.target source m₂ with
          | error e m₃ =>
              exact h₂.trans ((hfetched.error hfetch).mono (hS.within (by decide)))
          | ok _ m₃ =>
              have h₃ := h₂.trans ((hfetched.ok hfetch).mono (hS.within (by decide)))
              simp only
              unfold Fleet.land
              apply after_look_bind
              · intro mf hload
                have hchecked : After (Revert.checkThenApply F.toCrates st st.root mf false force
                    m₃) _ _ := Revert.checkThenApply_touched h₃.real fun hpasses q hq =>
                  hc.applied _ _ _ (.fleetApply hlock haccept hfetch hload hpasses) h₃ q hq
                apply After.bind (hchecked.mono (fun _ _ h => h₃.trans h) fun _ _ h => h₃.trans h)
                intro checked m₄ h₄
                apply After.bind (P := fun _ (m₅ : Machine) => m₅ = m₄)
                · obtain ⟨_, applied⟩ := checked
                  cases applied with
                  | none => exact h₄
                  | some _ => exact rfl
                intro _ m₅ hm₅
                subst hm₅
                apply After.bind (h₄.andThen (hS.setHead (some a.target)) fun _ hq => hq)
                intro _ m₆ h₆
                have hnote : st.Touching S (io (writeFile (Fleet.seenPath st)
                    (decimal (max a.payload.ts a.last).toNat ++ [10]))) :=
                  Fleet.note_touching.mono (hS.within (by decide))
                apply After.bind (h₆.andThen hnote fun _ hq => hq)
                intro _ m₇ h₇
                apply After.bind (h₇.andThen (hS.record _ _) fun _ hq => hq)
                intro _ _ h₈
                exact h₈
              · intro _ _
                exact h₃

/-- **What a command other than `purge` touches**, whatever its outcome: nothing
outside a set that covers the worktree and the records it works with. -/
theorem after_touched (hS : Covers st S) (hreal : st.Real m.fs) (hc : Bounded F st S c m)
    (hpurge : ∀ order rel, c ≠ .purge order rel) :
    st.Touched S m.fs (c.after F st m).fs := by
  cases c with
  | snap message actor => exact snap_touched hS hreal message actor
  | guard argv policy fullDrift child => exact guard_touched hS hreal hc
  | revert reference keepExtra force => exact revert_touched hS hreal hc
  | revertActor actor force => exact revertActor_after_touched hS hreal hc
  | fleetApply orderPath source force => exact fleetApply_touched hS hreal hc
  | pull addr peer => exact pull_touched hS hreal addr peer
  | purge order rel => exact absurd rfl (hpurge order rel)

end Cli

end Respawn
