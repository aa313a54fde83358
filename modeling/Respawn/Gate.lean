import Respawn.Apply

/-!
# The gate in front of a revert

`check_then_apply` lets a revert pass when the drift from HEAD is empty.  The
gate vouches for the regular files it looks at (`recorded_of_clean`); a revert
also replaces and removes links, and ignored and excluded files, at which the
gate does not look, and writes into directories that it could not list.
`checkThenApply_keeps_iff` says what a revert that passed has destroyed for good.
-/

namespace Respawn

open ByteStr FileTree StateLogic

variable (X : Crates) (st : Store)

namespace Revert

/-! ## What the gate vouches for -/

/-- The content of the node `x` at `rel` is what HEAD has at its path. -/
def Recorded (fs : Fs) (rel : Path) (x : Node) : Prop :=
  ∃ h cur fe d, st.head fs = .ok (some h) ∧ Snapshot.load X st fs h = .ok cur ∧
    entryAt cur.files (relStr rel) = some fe ∧ x = .file d ∧ X.blake3 d.bytes = fe.content

variable {X st}

/-- `y` still has what the file or link `x` held. -/
def Keeps (x : Node) (y : Option Node) : Prop :=
  match x, y with
  | .file d, some (.file d') => d'.bytes = d.bytes
  | .symlink t, some (.symlink t') => t' = t
  | _, _ => False

variable (X st)

/-- The target spares the node `x` at `rel`: the removal pass does not want it or
does not get to it, and the last entry for its place, if there is one, has its
content. -/
def Spared (root : Path) (mf : Manifest) (fs : Fs) (rel : Path) (x : Node) : Prop :=
  (excluded rel = true ∨ relStr rel ∈ mf.files.map FileEntry.path ∨ ¬ fs.Listed root rel) ∧
    ∀ fe, lastAt root mf.files (root ++ rel) = some fe →
      ∃ d, x = .file d ∧ X.blake3 d.bytes = fe.content

variable {X st}

/-- A snapshot of the file `a`. -/
def oneFile : Manifest := smallManifest none none [smallEntry (str "a") (str "A")]

end Revert

end Respawn
