import Respawn.Runs
import Respawn.Schedule

/-!
# The subcommands that record an event

Every subcommand of the command line that writes to the audit log, as the
program it runs.  All of them but `init` take the fabric lock before they do
anything (`Subcommand.locksFirst`): a program that takes it first is one that
runs under it, for the lock is kept until the process ends.
-/

namespace Respawn

open ByteStr FileTree StateLogic

/-- Everything the subcommands use of other crates. -/
structure Suite extends FleetCrates, AnchorCrates

/-- Open an existing fabric. -/
def Store.openRoot (root : Path) (fs : Fs) : Except Error Store :=
  match fs.metadata (Store.fabricDir ⟨root⟩ ++ [str "objects"]) with
  | .ok .dir => .ok ⟨root⟩
  | _ => .error .notInitialized

/-- The text of a path. -/
def Anchor.OutPath.text (p : OutPath) : Bytes :=
  if p.absolute then display p.comps else lossy (joinSlash p.comps)

variable (X : Suite) (st : Store)

/-- Pin the key that signs orders.  The first pin wins. -/
def Fleet.trust (pubkey : Bytes) : Sys Unit := do
  if pubkey.length ≠ 64 ∨ hexDecode pubkey = none then
    throw (.corrupt (str "fleet pubkey must be 64 hex chars"))
  else do
    let present ← look fun fs => .ok (fs.exists (Fleet.fleetKeyPath st))
    if present then do
      let cur ← look fun fs => ioErr (fs.readToString (Fleet.fleetKeyPath st))
      if trim cur = pubkey then pure ()
      else throw (.corrupt (str "fleet key already pinned — remove .respawn/fleet.pub to re-pin"))
    else do
      io (createDirAll st.fabricDir)
      io (writeFile (Fleet.fleetKeyPath st) (pubkey ++ [10]))
      Audit.record X.toCrates st (str "fleet-trust") pubkey

namespace Cli

/-- `respawn init` in the directory with this canonical path. -/
def init (root : Path) : Sys Unit := do
  let _ ← Store.init root
  let st ← look (Store.openRoot root)
  Audit.record X.toCrates st (str "init") (display root)

/-- `respawn fleet trust` -/
def fleetTrust (pubkey : Bytes) : Sys Unit := do
  st.tryLock
  Fleet.trust X st pubkey

/-- `respawn fleet order` -/
def fleetOrder (target : Bytes) (out : Path) : Sys Path := do
  st.tryLock
  let path ← Fleet.order X.toFleetCrates st target out
  Audit.record X.toCrates st (str "fleet-order") (display out)
  pure path

/-- `respawn anchor keygen` -/
def anchorKeygen : Sys (Bytes × Option Bytes) := do
  st.tryLock
  let (pk, note) ← Anchor.keygen X.toCrates st
  Audit.record X.toCrates st (str "anchor-keygen") pk
  pure (pk, note)

/-- `respawn anchor create` -/
def anchorCreate (cwd : Path) (file : Anchor.OutPath) : Sys Anchor.CreateOutcome := do
  st.tryLock
  let out ← Anchor.createFrom X.toAnchorCrates st cwd file
  Audit.record X.toCrates st (str "anchor") file.text
  pure out

/-- `respawn anchor next` -/
def anchorNext (env : Schedule.Env) (cwd : Path) (dir : Option Anchor.OutPath) :
    Sys (Anchor.OutPath × Anchor.CreateOutcome) := do
  st.tryLock
  let dir ← match dir with
    | some d => pure d
    | none => do
        let id ← Anchor.fabricId st
        let m ← get
        look fun _ => Schedule.defaultAnchorDir env m.keychain.macos id
  let (path, out) ← Anchor.nextFrom X.toAnchorCrates st cwd dir
  Audit.record X.toCrates st (str "anchor") path.text
  pure (path, out)

/-- A subcommand that records an event, with what it is given. -/
inductive Subcommand
  | init
  | snap (message : Bytes) (actor : Option Bytes)
  | revert (reference : Bytes) (keepExtra force : Bool)
  | revertActor (actor : Bytes) (force : Bool)
  | pull (addr : Bytes) (peer : Sync.Peer)
  | guard (argv : List Bytes) (policy : Guard.RevertPolicy) (fullDrift : Bool)
      (child : Guard.Child)
  | purge (order : List Hash → List Hash) (rel : Bytes)
  | fleetTrust (pubkey : Bytes)
  | fleetOrder (target : Bytes) (out : Path)
  | fleetApply (orderPath : Path) (source : Option (Bytes × Sync.Peer)) (force : Bool)
  | anchorKeygen
  | anchorCreate (cwd : Path) (file : Anchor.OutPath)
  | anchorNext (env : Schedule.Env) (cwd : Path) (dir : Option Anchor.OutPath)

/-- The subcommand on a worktree. -/
def Subcommand.program : Subcommand → Sys Unit
  | .init => Cli.init X st.root
  | .snap message actor => do let _ ← Cli.snap X.toCrates st message actor
  | .revert reference keepExtra force => do
      let _ ← Cli.revert X.toCrates st reference keepExtra force
  | .revertActor actor force => do let _ ← Cli.revertActor X.toCrates st actor force
  | .pull addr peer => do let _ ← Cli.pull X.toCrates st addr peer
  | .guard argv policy fullDrift child => do
      let _ ← Guard.run X.toCrates st argv policy fullDrift child
  | .purge order rel => do let _ ← Cli.purge X.toCrates st order rel
  | .fleetTrust pubkey => Cli.fleetTrust X st pubkey
  | .fleetOrder target out => do let _ ← Cli.fleetOrder X st target out
  | .fleetApply orderPath source force => do
      let _ ← Cli.fleetApply X.toFleetCrates st orderPath source force
  | .anchorKeygen => do let _ ← Cli.anchorKeygen X st
  | .anchorCreate cwd file => do let _ ← Cli.anchorCreate X st cwd file
  | .anchorNext env cwd dir => do let _ ← Cli.anchorNext X st env cwd dir

/-! ## The lock comes first -/

/-- The program takes the lock before it does anything else: a run that does not
begin so fails and leaves everything as it was. -/
def LocksFirst {α : Type} (x : Sys α) : Prop :=
  ∃ body : Sys α, ∀ m, x m = (do st.tryLock; body) m ∨ ∃ e, x m = .error e m

variable {X st}

theorem locksFirst_lock {α : Type} (body : Sys α) : LocksFirst st (do st.tryLock; body) :=
  ⟨body, fun _ => Or.inl rfl⟩

/-- What follows comes after the lock too. -/
theorem LocksFirst.bind {α β : Type} {x : Sys α} {f : α → Sys β} (h : LocksFirst st x) :
    LocksFirst st (x >>= f) := by
  obtain ⟨body, hbody⟩ := h
  refine ⟨body >>= f, fun m => ?_⟩
  rcases hbody m with hlock | ⟨e, hfail⟩
  · left
    rw [bind_apply, hlock]
    simp only [bind_apply]
    cases st.tryLock m <;> rfl
  · right
    exact ⟨e, by rw [bind_apply, hfail]⟩

theorem snap_locks (message : Bytes) (actor : Option Bytes) :
    LocksFirst st (Cli.snap X.toCrates st message actor) := locksFirst_lock _

theorem revert_locks (reference : Bytes) (keepExtra force : Bool) :
    LocksFirst st (Cli.revert X.toCrates st reference keepExtra force) := locksFirst_lock _

theorem revertActor_locks (actor : Bytes) (force : Bool) :
    LocksFirst st (Cli.revertActor X.toCrates st actor force) := locksFirst_lock _

theorem pull_locks (addr : Bytes) (peer : Sync.Peer) :
    LocksFirst st (Cli.pull X.toCrates st addr peer) := locksFirst_lock _

/-- `guard` looks at its command line first, and at nothing else. -/
theorem guard_locks (argv : List Bytes) (policy : Guard.RevertPolicy) (fullDrift : Bool)
    (child : Guard.Child) :
    LocksFirst st (Guard.run X.toCrates st argv policy fullDrift child) := by
  unfold Guard.run
  by_cases hargv : argv = []
  · simp only [if_pos hargv]
    exact ⟨throw .notInitialized, fun m => Or.inr ⟨.corrupt (str "guard requires a command"), rfl⟩⟩
  · simp only [if_neg hargv]
    exact locksFirst_lock _

theorem purge_locks (order : List Hash → List Hash) (rel : Bytes) :
    LocksFirst st (Cli.purge X.toCrates st order rel) := locksFirst_lock _

theorem fleetTrust_locks (pubkey : Bytes) : LocksFirst st (Cli.fleetTrust X st pubkey) :=
  locksFirst_lock _

theorem fleetOrder_locks (target : Bytes) (out : Path) :
    LocksFirst st (Cli.fleetOrder X st target out) := locksFirst_lock _

theorem fleetApply_locks (orderPath : Path) (source : Option (Bytes × Sync.Peer)) (force : Bool) :
    LocksFirst st (Cli.fleetApply X.toFleetCrates st orderPath source force) := locksFirst_lock _

theorem anchorKeygen_locks : LocksFirst st (Cli.anchorKeygen X st) := locksFirst_lock _

theorem anchorCreate_locks (cwd : Path) (file : Anchor.OutPath) :
    LocksFirst st (Cli.anchorCreate X st cwd file) := locksFirst_lock _

theorem anchorNext_locks (env : Schedule.Env) (cwd : Path) (dir : Option Anchor.OutPath) :
    LocksFirst st (Cli.anchorNext X st env cwd dir) := locksFirst_lock _

/-- **Every subcommand but `init` takes the lock** before it records anything. -/
theorem Subcommand.locksFirst (c : Subcommand) (hc : c ≠ .init) :
    LocksFirst st (c.program X st) := by
  cases c with
  | init => exact absurd rfl hc
  | snap message actor => exact (snap_locks message actor).bind
  | revert reference keepExtra force => exact (revert_locks reference keepExtra force).bind
  | revertActor actor force => exact (revertActor_locks actor force).bind
  | pull addr peer => exact (pull_locks addr peer).bind
  | guard argv policy fullDrift child => exact (guard_locks argv policy fullDrift child).bind
  | purge order rel => exact (purge_locks order rel).bind
  | fleetTrust pubkey => exact fleetTrust_locks pubkey
  | fleetOrder target out => exact (fleetOrder_locks target out).bind
  | fleetApply orderPath source force => exact (fleetApply_locks orderPath source force).bind
  | anchorKeygen => exact anchorKeygen_locks.bind
  | anchorCreate cwd file => exact (anchorCreate_locks cwd file).bind
  | anchorNext env cwd dir => exact (anchorNext_locks env cwd dir).bind

end Cli

end Respawn
