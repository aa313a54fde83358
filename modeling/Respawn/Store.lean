import Respawn.Records

/-!
# Content-addressed object store

Objects are compressed blobs under `objects/<2-hex>/<62-hex>`, named by the
hash of their uncompressed bytes; manifests lie the same way under
`manifests/`.  Writes go to a fresh temporary file that is renamed into place,
reads of objects check the hash.

What only reads the disk is a function of the file system; what writes is a
`Sys` computation.
-/

namespace Respawn

open ByteStr FileTree StateLogic

/-- A fabric, by the root of its worktree. -/
structure Store where
  root : Path

namespace Store

variable (X : Crates) (st : Store)

def fabricDir : Path := st.root ++ [FABRIC_DIR]

/-- Where a hash is kept under the fan-out directory `kind`. -/
def fanPath (kind : Name) (h : Hash) : Path :=
  st.fabricDir ++ [kind, (hashHex h).take 2, (hashHex h).drop 2]

def objectPath (h : Hash) : Path := st.fanPath (str "objects") h

def manifestPath (h : Hash) : Path := st.fanPath (str "manifests") h

def headPath : Path := st.fabricDir ++ [str "HEAD"]

/-! ## Reading -/

/-- A read whose missing file means a missing object. -/
def readBlob (fs : Fs) (path : Path) (h : Hash) : Except Error Bytes :=
  match fs.read path with
  | .ok data => .ok data
  | .error .notFound => .error (.missingObject h)
  | .error e => .error (.io e)

/-- Read and decompress an object; its size is bounded and its hash checked. -/
def getObject (fs : Fs) (h : Hash) : Except Error Bytes := do
  let compressed ← readBlob fs (st.objectPath h) h
  let data ← ioErr (X.zstdRead (MAX_OBJECT_SIZE + 1) compressed)
  if data.length > MAX_OBJECT_SIZE then
    .error (.corrupt (str "object " ++ short h ++ str " exceeds chunk bound"))
  else if X.blake3 data ≠ h then
    .error (.corrupt (str "object " ++ short h ++ str " failed content verification"))
  else .ok data

def hasObject (fs : Fs) (h : Hash) : Bool := fs.exists (st.objectPath h)

/-- Read a manifest file as it stands. -/
def getManifestBytes (fs : Fs) (h : Hash) : Except Error Bytes :=
  readBlob fs (st.manifestPath h) h

def hasManifest (fs : Fs) (h : Hash) : Bool := fs.exists (st.manifestPath h)

/-- Current HEAD snapshot id, if any. -/
def head (fs : Fs) : Except Error (Option Hash) :=
  match fs.readToString st.headPath with
  | .ok s =>
      if trim s = [] then .ok none
      else match parseHash (trim s) with
        | .ok h => .ok (some h)
        | .error e => .error e
  | .error .notFound => .ok none
  | .error e => .error (.io e)

/-- What `getObject` returns has the hash it was asked for, and fits a chunk. -/
theorem blake3_of_getObject {fs : Fs} {h : Hash} {data : Bytes}
    (hget : st.getObject X fs h = .ok data) :
    X.blake3 data = h ∧ data.length ≤ MAX_OBJECT_SIZE := by
  unfold getObject at hget
  cases hblob : readBlob fs (st.objectPath h) h with
  | error e => rw [hblob] at hget; cases hget
  | ok compressed =>
      cases hzstd : ioErr (X.zstdRead (MAX_OBJECT_SIZE + 1) compressed) with
      | error e =>
          rw [hblob] at hget
          simp only [bind, Except.bind, hzstd] at hget
          cases hget
      | ok d =>
          rw [hblob] at hget
          simp only [bind, Except.bind, hzstd] at hget
          by_cases hlen : d.length > MAX_OBJECT_SIZE
          · rw [if_pos hlen] at hget
            cases hget
          · rw [if_neg hlen] at hget
            by_cases hhash : X.blake3 d ≠ h
            · rw [if_pos hhash] at hget
              cases hget
            · rw [if_neg hhash] at hget
              have hd : d = data := Except.ok.inj hget
              subst hd
              exact ⟨not_not.mp hhash, by omega⟩

/-! ## Writing -/

/-- The tag of a temporary file that will be renamed to `path`. -/
def fileTag (path : Path) : Bytes :=
  match path.getLast? with
  | some n => if validUtf8 n then n else str "x"
  | none => str "x"

/-- Write `data` to `path` through a fresh sibling, named with `tag`, that is
renamed over it: the body of each `atomic_write`. -/
def replaceFile (tag : Bytes) (path : Path) (data : Bytes) : Sys Unit := do
  io (createDirAll path.dropLast)
  let tmp ← tmpPath path.dropLast tag
  let f ← io (createNew tmp defaultMode)
  io (writeAll f data)
  io (rename tmp path)

/-- `atomic_write` of the store. -/
def atomicWrite (path : Path) (data : Bytes) : Sys Unit := replaceFile (fileTag path) path data

/-- Append a line to a file: how tombstones and audit entries are written. -/
def appendLine (path : Path) (line : Bytes) : Sys Unit := do
  let f ← io (openAppend path)
  io (writeAll f line)
  io (writeAll f [10])

/-- Store bytes under the hash `h` at `path` unless something is there. -/
def putBlob (path : Path) (stored : Bytes) : Sys Unit := do
  let present ← look fun fs => .ok (fs.exists path)
  if present then pure ()
  else do
    io (createDirAll path.dropLast)
    atomicWrite path stored

/-- Store bytes, returning the content hash. -/
def putObject (data : Bytes) : Sys Hash := do
  let h := X.blake3 data
  putBlob (st.objectPath h) (X.zstdEncode data)
  pure h

/-- Store bytes that arrived under the name `h`. -/
def putObjectAs (h : Hash) (data : Bytes) : Sys Unit := do
  if X.blake3 data ≠ h then
    throw (.corrupt (str "object " ++ short h ++ str " failed content verification"))
  else do
    let _ ← putObject X st data
    pure ()

/-- Store a serialized manifest; returns its snapshot id. -/
def putManifest (data : Bytes) : Sys Hash := do
  let h := X.blake3 data
  putBlob (st.manifestPath h) data
  pure h

/-- Store manifest bytes that arrived under the name `h`. -/
def putManifestAs (h : Hash) (data : Bytes) : Sys Unit := do
  if X.blake3 data ≠ h then throw (.corrupt (str "manifest hash mismatch"))
  else do
    let _ ← putManifest X st data
    pure ()

/-- Swap HEAD. -/
def setHead (h : Option Hash) : Sys Unit :=
  atomicWrite st.headPath (match h with
    | some h => hashHex h
    | none => [])

/-- `try_lock` as far as the disk is concerned: the lock file is made if it is
missing.  No other process runs. -/
def tryLock : Sys Unit := do
  let _ ← io (openAppend (st.fabricDir ++ [str "lock"]))
  pure ()

/-- Initialize a new fabric. -/
def init (root : Path) : Sys Store := do
  let st : Store := ⟨root⟩
  io (createDirAll (st.fabricDir ++ [str "objects"]))
  io (createDirAll (st.fabricDir ++ [str "manifests"]))
  let present ← look fun fs => .ok (fs.exists st.headPath)
  if present then pure st
  else do
    io (writeFile st.headPath [])
    pure st

end Store

/-! ## A small fabric -/

namespace Store

/-- A file as an editor leaves it. -/
def plainFile (bytes : Bytes) : Node := .file ⟨bytes, defaultMode, 0⟩

/-- The directories of a fabric and a HEAD file with this content. -/
def fabricNodes (st : Store) (head : Bytes) : List (Path × Node) :=
  [(st.root, .dir), (st.fabricDir, .dir), (st.fabricDir ++ [str "objects"], .dir),
   (st.fabricDir ++ [str "manifests"], .dir), (st.headPath, plainFile head)]

/-- A blob kept under its hash. -/
def blobNodes (st : Store) (kind : Name) (h : Hash) (bytes : Bytes) : List (Path × Node) :=
  [((st.fanPath kind h).dropLast, .dir), (st.fanPath kind h, plainFile bytes)]

end Store

end Respawn
