import Respawn.Reach
import Respawn.Surgical

/-!
# Commands

What the command line does around the operations: it takes the lock, runs the
operation, moves HEAD and records the event.  `guard` runs a command between a
snapshot and a revert; the command is a parameter, for it can do anything.
-/

namespace Respawn

open ByteStr FileTree StateLogic

variable (X : Crates) (st : Store)

namespace Snapshot

/-- An ASCII letter in lower case. -/
def lowerAscii (b : UInt8) : UInt8 := if 65 ≤ b ∧ b ≤ 90 then b + 32 else b

/-- Resolve a snapshot reference: full hex, a unique hex prefix, or `head`. -/
def resolve (reference : Bytes) (fs : Fs) : Except Error Hash :=
  if reference = str "head" ∨ reference = str "HEAD" then
    match st.head fs with
    | .error e => .error e
    | .ok none => .error (.corrupt (str "no HEAD snapshot"))
    | .ok (some h) => .ok h
  else if reference.length = 64 then parseHash reference
  else
    let start := reference.map lowerAscii
    if start.length < 4 ∨ ∃ b ∈ start, hexValue b = none then .error (.badHash reference)
    else match storedIds st (str "manifests") fs with
      | .error e => .error e
      | .ok ids => match ids.filter fun h => start <+: hashHex h with
        | [] => .error (.badHash (str "no snapshot matches '" ++ reference ++ str "'"))
        | [h] => .ok h
        | _ => .error (.badHash (str "ambiguous prefix '" ++ reference ++ str "'"))

end Snapshot

/-! ## Guard -/

namespace Guard

/-- When to restore the snapshot taken before the command. -/
inductive RevertPolicy
  | never
  | onFail
  | always
  deriving DecidableEq

/-- How a command ended: its exit code, or the signal that killed it. -/
structure ExitStatus where
  code : Option Int
  signal : Option Int
  deriving DecidableEq

def ExitStatus.success (s : ExitStatus) : Bool := s.code = some 0

/-- A command run in a worktree: it cannot be started, or it leaves another
world behind. -/
abbrev Child := World → Except Errno (ExitStatus × World)

structure GuardReport where
  snapshot : Hash
  exitCode : Option Int
  signal : Option Int
  drift : Drift.DriftReport
  reverted : Bool

/-- Does the policy ask for a revert? -/
def shouldRevert (policy : RevertPolicy) (status : ExitStatus) : Bool :=
  match policy with
  | .always => true
  | .onFail => !status.success
  | .never => false

/-- Run a command; its failure to start is a value. -/
def spawn (child : Child) : Sys (Except Errno ExitStatus) := fun m =>
  match child m.toWorld with
  | .ok (status, w) => .ok (.ok status) { m with toWorld := w }
  | .error e => .ok (.error e) m

/-- A number with its sign, as `{}` prints it. -/
def signedDecimal (n : Int) : Bytes := (if n < 0 then str "-" else []) ++ decimal n.natAbs

/-- The words of a command, separated by blanks. -/
def joinWords (argv : List Bytes) : Bytes := [32].intercalate argv

/-- What `run` does once the command has ended. -/
def settle (argv : List Bytes) (policy : RevertPolicy) (fullDrift : Bool) (snap : Hash)
    (status : ExitStatus) : Sys GuardReport := do
  let manifest ← look fun fs => Snapshot.load X st fs snap
  let report ← look (Drift.detect X st.root manifest fullDrift)
  let reverted := shouldRevert policy status
  if reverted then do
    let _ ← Revert.apply X st st.root manifest false
    st.setHead (some snap)
  Audit.record X st (str "guard") (joinWords argv ++ str " exit " ++
    signedDecimal (status.code.getD (-1)) ++ str " drift +" ++ decimal report.added.length ++
    str " ~" ++ decimal report.modified.length ++ str " -" ++ decimal report.deleted.length ++
    if reverted then str " reverted" else [])
  pure { snapshot := snap
         exitCode := status.code
         signal := status.signal
         drift := report
         reverted := reverted }

/-- Snapshot the worktree, run a command in it, report the drift, and revert
when the policy asks for it. -/
def run (argv : List Bytes) (policy : RevertPolicy) (fullDrift : Bool) (child : Child) :
    Sys GuardReport := do
  if argv = [] then throw (.corrupt (str "guard requires a command"))
  st.tryLock
  let prevHead ← look st.head
  let snap ← Snapshot.createFromActor X st st.root (str "guard: " ++ joinWords argv) none
  let spawned ← spawn child
  match spawned with
  | .error e => do
      -- nothing ran: HEAD goes back
      st.setHead prevHead
      throw (.io e)
  | .ok status => settle X st argv policy fullDrift snap status

end Guard

/-! ## The command line -/

namespace Cli

/-- `respawn snap` -/
def snap (message : Bytes) (actor : Option Bytes) : Sys Hash := do
  st.tryLock
  let id ← Snapshot.createFromActor X st st.root message actor
  Audit.record X st (str "snap") (hashHex id)
  pure id

/-- The result of a gated revert, or the refusal. -/
def granted {α β : Type} : α × Option β → Sys β
  | (_, some r) => pure r
  | (_, none) => throw (.corrupt (str "revert refused"))

/-- `respawn revert` -/
def revert (reference : Bytes) (keepExtra force : Bool) : Sys Revert.RevertReport := do
  st.tryLock
  let id ← look (Snapshot.resolve st reference)
  let m ← look fun fs => Snapshot.load X st fs id
  let checked ← Revert.checkThenApply X st st.root m keepExtra force
  let r ← granted checked
  st.setHead (some id)
  Audit.record X st (str "revert") (short id ++ str " restored " ++ decimal r.restored.length ++
    str " removed " ++ decimal r.removed.length)
  pure r

/-- Remove a path that only the actor's snapshots know. -/
def removeActorPath (p : Bytes) : Sys Unit := do
  let rel ← look (Revert.resolveDest st.root p)
  let node ← look fun fs => .ok (fs.symlinkMetadata (rel.under st.root))
  match node with
  | .ok (.file _) | .ok (.symlink _) => io (removeFile (rel.under st.root))
  | .ok .dir | .error .notFound => pure ()
  | .error e => throw (.io e)

/-- `respawn revert --actor` -/
def revertActor (actor : Bytes) (force : Bool) : Sys Hash := do
  st.tryLock
  let (vm, touched) ← look (Revert.surgicalManifest X st actor)
  let checked ← Revert.checkThenApply X st st.root vm true force
  let _ ← granted checked
  forEach touched fun p =>
    if p ∈ vm.files.map FileEntry.path then pure () else removeActorPath st p
  let id ← Snapshot.createFromActor X st st.root
    (str "surgical undo of actor '" ++ actor ++ str "'") none
  Audit.record X st (str "revert-actor") (actor ++ str " " ++ decimal touched.length ++
    str " paths")
  pure id

/-- `respawn pull` -/
def pull (addr : Bytes) (peer : Sync.Peer) : Sys Sync.PullReport := do
  st.tryLock
  let r ← Sync.pull X st addr peer
  match r.remoteHead with
  | none => pure r
  | some h => do
      Audit.record X st (str "pull") (addr ++ str " head " ++ short h ++ str " objects " ++
        decimal r.objectsFetched)
      pure r

/-- `respawn purge` -/
def purge (order : List Hash → List Hash) (rel : Bytes) : Sys Purge.PurgeReport := do
  st.tryLock
  Purge.run X st order st.root rel

/-! ### What the commands touch -/

variable {X st} {m : Machine}

/-- What every command works with. -/
abbrev commonNames : List Name := [str "lock", str "audit.jsonl"]

/-- A snapshot touches the records it makes, and the log. -/
theorem snap_touching (message : Bytes) (actor : Option Bytes) :
    st.Touching (st.Within (commonNames ++ Snapshot.workNames)) (snap X st message actor) := by
  unfold snap
  apply (Store.tryLock_touching.mono fun _ hq => hq.mono (by decide)).bind
  intro _
  apply ((Snapshot.createFromActor_touching _ _).mono fun _ hq => hq.mono (by decide)).bind
  intro id
  apply ((Audit.record_touching _ _).mono fun _ hq => hq.mono (by decide)).bind
  intro _
  exact Store.Touching.pure _

/-- After the lock is taken. -/
abbrev locked (st : Store) (m : Machine) : Machine := finalState (st.tryLock m)

/-- Taking the lock touches its file. -/
theorem locked_after {S : Path → Prop} (hreal : st.Real m.fs)
    (hS : ∀ q, st.Within [str "lock"] q → S q) :
    After (st.tryLock m) (fun _ m₁ => m₁ = locked st m ∧ st.Touched S m.fs m₁.fs)
      (fun _ m₁ => st.Touched S m.fs m₁.fs) := by
  have hlock := (Store.tryLock_touching.mono hS) m hreal
  unfold locked
  cases hl : st.tryLock m with
  | ok u m₁ =>
      rw [hl] at hlock
      exact ⟨rfl, hlock⟩
  | error e m₁ =>
      rw [hl] at hlock
      exact hlock

/-- A gate that refuses changes nothing. -/
theorem granted_after {α β : Type} {r : α × Option β} {E : Error → Machine → Prop}
    (herr : ∀ e, E e m) : After (granted r m) (fun _ m' => m' = m) E := by
  obtain ⟨_, applied⟩ := r
  cases applied with
  | none => exact herr _
  | some _ => exact rfl

/-- The manifest that a reference stands for. -/
def Refers (X : Crates) (st : Store) (fs : Fs) (reference : Bytes) (mf : Manifest) : Prop :=
  ∃ id, Snapshot.resolve st reference fs = .ok id ∧ Snapshot.load X st fs id = .ok mf

/-- A revert touches what its manifest makes it touch. -/
theorem revert_touches {reference : Bytes} {keepExtra force : Bool} (hreal : st.Real m.fs) :
    let S := fun q => st.Within (str "HEAD" :: commonNames) q ∨
      ∃ mf, Refers X st (locked st m).fs reference mf ∧
        Revert.Touches st mf.files (locked st m).fs q
    After (revert X st reference keepExtra force m)
      (fun _ m' => st.Touched S m.fs m'.fs) (fun _ m' => st.Touched S m.fs m'.fs) := by
  intro S
  have hcommon : ∀ {names : List Name} {q : Path}, st.Within names q →
      (∀ n ∈ names, n ∈ str "HEAD" :: commonNames) → S q := fun hq hn => Or.inl (hq.mono hn)
  unfold revert
  apply After.bind (locked_after hreal fun _ hq => hcommon hq (by decide))
  intro _ m₁ h₁
  obtain ⟨hm₁, h₁⟩ := h₁
  apply after_look_bind
  · intro id hid
    apply after_look_bind
    · intro mf hmf
      have hrefers : Refers X st (locked st m).fs reference mf := ⟨id, hm₁ ▸ hid, hm₁ ▸ hmf⟩
      apply After.bind (P := fun _ m₂ => st.Touched S m.fs m₂.fs)
      · have htouch : ∀ m₂ : Machine, st.Touched (Revert.Touches st mf.files m₁.fs) m₁.fs m₂.fs →
            st.Touched S m.fs m₂.fs := by
          intro m₂ h
          refine h₁.trans (h.mono ?_)
          intro q hq
          exact Or.inr ⟨mf, hrefers, hm₁ ▸ hq⟩
        exact (Revert.checkThenApply_touches h₁.real).mono (fun _ m₂ h => htouch m₂ h)
          fun _ m₂ h => htouch m₂ h
      intro checked m₂ h₂
      apply After.bind (granted_after fun _ => h₂)
      intro r m₃ hm₃
      subst hm₃
      apply After.bind (h₂.andThen (Store.setHead_touching (some id)) fun _ hq =>
        hcommon hq (by decide))
      intro _ m₄ h₄
      apply After.bind (h₄.andThen (Audit.record_touching _ _) fun _ hq => hcommon hq (by decide))
      intro _ _ h₅
      exact h₅
    · intro _ _
      exact h₁
  · intro _ _
    exact h₁

/-- The place a path of a manifest stands for. -/
def Spells (root : Path) (p : Bytes) (q : Path) : Prop :=
  ∃ rel, sanitizeRel p = .ok rel ∧ q = root ++ rel.comps

/-- Removing a path of the actor touches what it spells. -/
theorem removeActorPath_touches {p : Bytes} (hreal : st.Real m.fs) :
    After (removeActorPath st p m) (fun _ m' => st.Touched (Spells st.root p) m.fs m'.fs)
      (fun _ m' => st.Touched (Spells st.root p) m.fs m'.fs) := by
  have hroot : m.fs.get st.root = some .dir :=
    Fs.dir_of_prefix hreal.dir (List.prefix_append _ _)
  have hsame := Store.Touched.refl (S := Spells st.root p) hreal
  unfold removeActorPath
  apply after_look_bind
  · intro rel hrel
    obtain ⟨hpath, hclear⟩ := (Revert.resolveDest_eq_ok hroot).mp hrel
    have hremove : After (removeFile (rel.under st.root) m.toWorld)
        (fun _ w => st.Touched (Spells st.root p) m.fs w.fs) (fun _ w => w = m.toWorld) := by
      cases hdir : rel.dirOnly with
      | true =>
          -- what asks for a directory is none that can be removed so
          cases hrun : removeFile (rel.under st.root) m.toWorld with
          | error e w => exact removeFile_error hrun
          | ok u w =>
              obtain ⟨q, x, hres, hleaf, _⟩ := removeFile_ok hrun
              rw [RelPath.under, hdir] at hres
              have hget := Fs.resolve_dot hres
              exact absurd hget (fun h => (Fs.leaf_eq_some _ |>.mp hleaf).2
                (Option.some.inj ((Fs.leaf_eq_some _ |>.mp hleaf).1.symm.trans h)))
      | false =>
          apply Store.Touched.of_removeFile hreal
          intro q hres
          rw [Revert.RelPath.under_plain hdir] at hres
          refine ⟨rel, hpath, ?_⟩
          apply Fs.resolve_eq_self (Revert.valid_under hroot rel) _ (by simp) hres
          intro pre hpre hne t ht
          rcases List.prefix_or_prefix_of_prefix hpre (List.prefix_append st.root _) with hup | hin
          · rw [Fs.dir_of_prefix hroot hup] at ht
            cases ht
          · obtain ⟨tail, rfl⟩ := hin
            have htail := (List.prefix_append_right_inj st.root).mp hpre
            rcases hclear tail htail (fun heq => hne (by rw [heq])) with hx | hx
            · rw [hx] at ht
              cases ht
            · rw [hx] at ht
              cases ht
    have hgone : After (io (removeFile (rel.under st.root)) m)
        (fun _ m' => st.Touched (Spells st.root p) m.fs m'.fs)
        (fun _ m' => st.Touched (Spells st.root p) m.fs m'.fs) := by
      apply after_io
      exact hremove.mono (fun _ _ h => h) fun _ _ h => h ▸ hsame
    rw [bind_apply, look_get]
    cases m.fs.symlinkMetadata (rel.under st.root) with
    | error e => cases e <;> exact hsame
    | ok x =>
        cases x with
        | dir => exact hsame
        | file d => exact hgone
        | symlink t => exact hgone
  · intro _ _
    exact hsame

/-- A surgical revert touches what its manifest and the paths of the actor make
it touch, and then snapshots the tree. -/
theorem revertActor_touches {actor : Bytes} {force : Bool} (hreal : st.Real m.fs) :
    let S := fun q => st.Within (commonNames ++ Snapshot.workNames) q ∨
      ∃ vm touched, Revert.surgicalManifest X st actor (locked st m).fs = .ok (vm, touched) ∧
        (Revert.Touches st vm.files (locked st m).fs q ∨ ∃ p ∈ touched, Spells st.root p q)
    After (revertActor X st actor force m)
      (fun _ m' => st.Touched S m.fs m'.fs) (fun _ m' => st.Touched S m.fs m'.fs) := by
  intro S
  have hcommon : ∀ {names : List Name} {q : Path}, st.Within names q →
      (∀ n ∈ names, n ∈ commonNames ++ Snapshot.workNames) → S q :=
    fun hq hn => Or.inl (hq.mono hn)
  unfold revertActor
  apply After.bind (locked_after hreal fun _ hq => hcommon hq (by decide))
  intro _ m₁ h₁
  obtain ⟨hm₁, h₁⟩ := h₁
  apply after_look_bind
  · intro surgical hsurgical
    obtain ⟨vm, touched⟩ := surgical
    have hplan : Revert.surgicalManifest X st actor (locked st m).fs = .ok (vm, touched) :=
      hm₁ ▸ hsurgical
    simp only
    apply After.bind (P := fun _ m₂ => st.Touched S m.fs m₂.fs)
    · have htouch : ∀ m₂ : Machine, st.Touched (Revert.Touches st vm.files m₁.fs) m₁.fs m₂.fs →
          st.Touched S m.fs m₂.fs := by
        intro m₂ h
        refine h₁.trans (h.mono ?_)
        intro q hq
        exact Or.inr ⟨vm, touched, hplan, Or.inl (hm₁ ▸ hq)⟩
      exact (Revert.checkThenApply_touches h₁.real).mono (fun _ m₂ h => htouch m₂ h)
        fun _ m₂ h => htouch m₂ h
    intro checked m₂ h₂
    apply After.bind (granted_after fun _ => h₂)
    intro r m₃ hm₃
    subst hm₃
    apply After.bind (P := fun _ m₄ => st.Touched S m.fs m₄.fs)
    · refine After.forEach (I := fun s : Machine => st.Touched S m.fs s.fs) h₂ ?_
      intro p hp s hs
      split
      · exact hs
      · have htouch : ∀ s' : Machine, st.Touched (Spells st.root p) s.fs s'.fs →
            st.Touched S m.fs s'.fs := by
          intro s' h
          refine hs.trans (h.mono ?_)
          intro q hq
          exact Or.inr ⟨vm, touched, hplan, Or.inr ⟨p, hp, hq⟩⟩
        exact (removeActorPath_touches hs.real).mono (fun _ s' h => htouch s' h)
          fun _ s' h => htouch s' h
    intro _ m₄ h₄
    apply After.bind (h₄.andThen (Snapshot.createFromActor_touching _ _) fun _ hq =>
      hcommon hq (by decide))
    intro id m₅ h₅
    apply After.bind (h₅.andThen (Audit.record_touching _ _) fun _ hq => hcommon hq (by decide))
    intro _ _ h₆
    exact h₆
  · intro _ _
    exact h₁

end Cli

end Respawn
