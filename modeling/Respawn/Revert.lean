import Respawn.Drift

/-!
# Revert

`apply` materializes a manifest into a worktree in three passes: every entry is
written to a temporary file in `.respawn/tmp` and renamed over its
destination, files the manifest does not know are removed, directories left
empty are pruned.  `check_then_apply` puts the drift gate in front of it.
-/

namespace Respawn

open ByteStr FileTree StateLogic

variable (X : Crates) (st : Store)

namespace Revert

structure RevertReport where
  restored : List Bytes
  removed : List Bytes
  skippedExtra : List Bytes
  deriving DecidableEq

/-- Should the removal pass and the pruning leave this path alone? -/
def excluded (rel : Path) : Bool := excludedBy excludedNames rel

/-- Only the plain permission bits are honored. -/
def setMode (path : Path) (mode : Nat) : Sys Unit := io (setPermissions path (mode % 512))

/-- The ancestors `cur ++ [c₁]`, `cur ++ [c₁, c₂]`, … of a destination other
than itself must be directories or missing. -/
def checkAncestors (fs : Fs) (rel : RelPath) : Path → List Name → Except Error Unit
  | _, [] => .ok ()
  | _, [_] => .ok ()
  | cur, c :: rest =>
      match fs.symlinkMetadata (cur ++ [c]) with
      | .ok (.symlink _) =>
          .error (.unsafePath (lossy rel.text ++ str " passes through symlink " ++
            display (cur ++ [c])))
      | .ok .dir => checkAncestors fs rel (cur ++ [c]) rest
      | .ok (.file _) =>
          .error (.unsafePath (lossy rel.text ++ str " blocked by non-directory " ++
            display (cur ++ [c])))
      | .error .notFound => checkAncestors fs rel (cur ++ [c]) rest
      | .error e => .error (.io e)

/-- Resolve a manifest path to a destination inside `root`, refusing any
ancestor that is a link or a file. -/
def resolveDest (root : Path) (path : Bytes) (fs : Fs) : Except Error RelPath :=
  match sanitizeRel path with
  | .error e => .error e
  | .ok rel => match checkAncestors fs rel root rel.comps with
    | .error e => .error e
    | .ok () => .ok rel

/-- The first entry whose path or content is purged stops the revert. -/
def checkTombstones (tombs : List Tombstone) : List FileEntry → Except Error Unit
  | [] => .ok ()
  | fe :: rest =>
      if tombs.any fun t => t.path = fe.path ∨ t.content = hashHex fe.content then
        .error (.corrupt (str "manifest contains purged content (" ++ fe.path ++
          str ") — erasure cannot be reverted"))
      else checkTombstones tombs rest

def tmpDir : Path := st.fabricDir ++ [str "tmp"]

/-- Does the live file differ from the entry?  A link is never a match. -/
def needsWrite (dest : Path) (fe : FileEntry) (fs : Fs) : Except Error Bool :=
  match fs.symlinkMetadata dest with
  | .ok (.file _) => match fs.read dest with
    | .ok data => .ok (X.blake3 data ≠ fe.content)
    | .error e => .error (.io e)
  | _ => .ok true

/-- Append the chunks of an entry to an open file; what was written. -/
def copyChunks (f : Path) (chunks : List Hash) : Sys Bytes := do
  let parts ← collect chunks fun ch => do
    let data ← look fun fs => st.getObject X fs ch
    io (writeAll f data)
    pure (some data)
  pure parts.flatten

/-- Replace `dest` by the content of an entry. -/
def materialize (dest : Path) (fe : FileEntry) : Sys Unit := do
  let tmp ← tmpPath (tmpDir st) (str "revert")
  let f ← io (createNew tmp defaultMode)
  let data ← copyChunks X st f fe.chunks
  if X.blake3 data ≠ fe.content then do
    ignore (removeFile tmp)
    throw (.corrupt (str "reconstructed content mismatch for " ++ fe.path))
  else do
    io (rename tmp dest)
    setMode dest fe.mode

/-- Bring the destination of one entry to the entry's content. -/
def writeEntry (root : Path) (fe : FileEntry) : Sys (Option Bytes) := do
  let rel ← look (resolveDest root fe.path)
  io (createDirAll (root ++ rel.comps.dropLast))
  let needed ← look (needsWrite X (rel.under root) fe)
  if needed then do
    materialize X st (rel.under root) fe
    pure (some fe.path)
  else pure none

/-- Is this path one that the removal pass takes away, given the node there? -/
def removable (m : Manifest) (rel : Path) (node : Option Node) : Bool :=
  match node with
  | some (.file _) | some (.symlink _) =>
      !excluded rel && !(m.files.map FileEntry.path).contains (relStr rel)
  | _ => false

/-- One step of the removal walk; the flag says whether the file is gone. -/
def removeExtra (root : Path) (m : Manifest) (keepExtra : Bool) (rel : Path) :
    Sys (Option (Bytes × Bool)) := do
  let node ← look fun fs => .ok (fs.get (root ++ rel))
  if removable m rel node then
    if keepExtra then pure (some (relStr rel, false))
    else do
      io (removeFile (root ++ rel))
      pure (some (relStr rel, true))
  else pure none

/-- The directories under a root, deepest first. -/
def dirsDeepestFirst (root : Path) (fs : Fs) : List Path :=
  ((fs.walk root).filter fun rel => fs.get (root ++ rel) = some .dir ∧ rel ≠ []).insertionSort
    fun a b => b.length ≤ a.length

/-- Remove empty directories under root, except in excluded paths. -/
def pruneEmptyDirs (root : Path) : Sys Unit := do
  let dirs ← look fun fs => .ok (dirsDeepestFirst root fs)
  forEach dirs fun rel =>
    if excluded rel then pure () else ignore (removeDir (root ++ rel))

/-- Write every entry of a manifest; the paths that were written. -/
def writePass (root : Path) (files : List FileEntry) : Sys (List Bytes) :=
  collect files (writeEntry X st root)

/-- Remove what the manifest does not know. -/
def removalPass (root : Path) (m : Manifest) (keepExtra : Bool) :
    Sys (List (Bytes × Bool)) := do
  let entries ← look fun fs => .ok (fs.walk root)
  collect entries (removeExtra root m keepExtra)

/-- What `apply` checks before it touches the worktree. -/
def precheck (m : Manifest) (fs : Fs) : Except Error Unit :=
  match m.validate with
  | .error e => .error e
  | .ok () => match tombstones X st fs with
    | .error e => .error e
    | .ok tombs => checkTombstones tombs m.files

/-- Materialize a manifest into `root`. -/
def apply (root : Path) (m : Manifest) (keepExtra : Bool) : Sys RevertReport := do
  look (precheck X st m)
  io (createDirAll (tmpDir st))
  let restored ← writePass X st root m.files
  let extras ← removalPass root m keepExtra
  pruneEmptyDirs root
  pure { restored := restored
         removed := (extras.filter fun e => e.2 = true).map Prod.fst
         skippedExtra := (extras.filter fun e => e.2 = false).map Prod.fst }

/-- The manifest a tree without snapshots is compared with. -/
def emptyManifest : Manifest :=
  { version := MANIFEST_VERSION
    parent := none
    timestampSecs := 0
    message := []
    files := []
    unstable := []
    actor := none }

/-- The drift report the gate decides on. -/
def gateReport (root : Path) (fs : Fs) : Except Error Drift.DriftReport :=
  match st.head fs with
  | .error e => .error e
  | .ok (some h) => match Snapshot.load X st fs h with
    | .error e => .error e
    | .ok cur => Drift.detect X root cur true fs
  | .ok none => Drift.detect X root emptyManifest false fs

/-- Does a report show anything a revert would destroy? -/
def dirty (report : Drift.DriftReport) : Bool :=
  report.added ≠ [] || report.modified ≠ [] || report.deleted ≠ []

/-- Drift check, then revert. -/
def checkThenApply (root : Path) (m : Manifest) (keepExtra force : Bool) :
    Sys (Drift.DriftReport × Option RevertReport) := do
  let report ← look (gateReport X st root)
  if dirty report && !force then pure (report, none)
  else do
    let r ← apply X st root m keepExtra
    pure (report, some r)

end Revert

end Respawn
