import Respawn.Snapshot

/-!
# Drift detection

`detect` compares the regular files of a live tree with a manifest.  The walk
yields one finding for each file it looks at; the report sorts the findings,
and the expected paths nobody found are the deleted ones.
-/

namespace Respawn

open ByteStr FileTree StateLogic

variable (X : Crates)

namespace Drift

/-- Should this path be left out of the comparison? -/
def excluded (rel : Path) : Bool := excludedBy excludedNames rel

/-- What the walk finds out about a file. -/
inductive Finding
  | added
  | modified
  | touched
  | untouched
  deriving DecidableEq

/-- Paths that differ from the manifest. -/
structure DriftReport where
  added : List Bytes
  modified : List Bytes
  deleted : List Bytes
  touched : List Bytes
  deriving DecidableEq

/-- Compare the file `d` with what the manifest says of its path. -/
def compare (root : Path) (m : Manifest) (full : Bool) (rel : Path) (d : FileData) (fs : Fs) :
    Except Error Finding :=
  match entryAt m.files (relStr rel) with
  | none => .ok .added
  | some fe =>
      if full = false ∧ d.bytes.length = fe.size ∧ unixSecs d.mtime = fe.mtimeSecs ∧
          subsecNanos d.mtime = fe.mtimeNanos then .ok .untouched
      else match fs.read (root ++ rel) with
        | .error e => .error (.io e)
        | .ok data => .ok (if X.blake3 data ≠ fe.content then .modified else .touched)

/-- One step of the walk: the path and what was found. -/
def inspect (root : Path) (m : Manifest) (patterns : List Bytes) (full : Bool) (fs : Fs)
    (rel : Path) : Except Error (Option (Bytes × Finding)) :=
  match fs.get (root ++ rel) with
  | some (.file d) =>
      if excluded rel then .ok none
      else if Snapshot.ignored patterns (relStr rel) then .ok none
      else match compare X root m full rel d fs with
        | .error e => .error e
        | .ok finding => .ok (some (relStr rel, finding))
  | _ => .ok none

/-- The paths with one finding, sorted. -/
def pathsWith (finding : Finding) (findings : List (Bytes × Finding)) : List Bytes :=
  ((findings.filter fun f => f.2 = finding).map Prod.fst).insertionSort (· ≤ ·)

/-- Compute the drift of the live tree under `root` from a manifest.  With
`full` every tracked file is hashed again. -/
def detect (root : Path) (m : Manifest) (full : Bool) (fs : Fs) : Except Error DriftReport :=
  match scan (fs.walk root)
      (inspect X root m (Snapshot.ignorePatterns root fs) full fs) with
  | .error e => .error e
  | .ok findings =>
      .ok { added := pathsWith .added findings
            modified := pathsWith .modified findings
            deleted := ((m.files.map FileEntry.path).dedup.filter fun p =>
              p ∉ findings.map Prod.fst).insertionSort (· ≤ ·)
            touched := pathsWith .touched findings }

end Drift

end Respawn
