import Respawn.Store

/-!
# Snapshots

`create_from_actor` walks a tree, chunks every file it keeps into the store
and writes a manifest; it is cut here into `buildManifest`, which makes the
manifest, and `storeManifest`, which stores it and moves HEAD.  `load` reads a
manifest back.  The tombstones that `create` consults are read here too, since
the snapshot layer lies below `purge`.
-/

namespace Respawn

open ByteStr FileTree StateLogic

variable (X : Crates) (st : Store)

/-! ## Tombstones -/

def tombstonePath : Path := st.fabricDir ++ [str "purged.jsonl"]

/-- The loop of `tombstones`, `i` lines having been read. -/
def parseTombstones (i : Nat) : List Bytes → Except Error (List Tombstone)
  | [] => .ok []
  | line :: rest =>
      if trim line = [] then parseTombstones (i + 1) rest
      else match X.tombstoneOfJson (trim line) with
        | .error _ =>
            .error (.corrupt (str "tombstone line " ++ decimal (i + 1) ++ str " unparsable"))
        | .ok t => match parseTombstones (i + 1) rest with
          | .error e => .error e
          | .ok out => .ok (t :: out)

/-- All tombstones recorded so far. -/
def tombstones (fs : Fs) : Except Error (List Tombstone) :=
  match fs.readToString (tombstonePath st) with
  | .error .notFound => .ok []
  | .error e => .error (.io e)
  | .ok s => parseTombstones X 0 (fileLines s)

/-- True if `path` or `content` is tombstoned. -/
def isPurged (path : Bytes) (content : Hash) (fs : Fs) : Except Error Bool :=
  match tombstones X st fs with
  | .error e => .error e
  | .ok tombs => .ok (tombs.any fun t => t.path = path ∨ t.content = hashHex content)

namespace Snapshot

/-! ## Reading -/

/-- Load a manifest by snapshot id. -/
def load (fs : Fs) (id : Hash) : Except Error Manifest :=
  match st.getManifestBytes fs id with
  | .error e => .error e
  | .ok bytes => Manifest.decode X bytes

/-- A loaded snapshot is the decoding of bytes that hash to its id. -/
def LoadsNamed (fs : Fs) (id : Hash) : Prop :=
  ∀ m, load X st fs id = .ok m → ∃ bytes, X.blake3 bytes = id ∧ Manifest.decode X bytes = .ok m

/-- The bytes are no manifest that is accepted: too many, no text of one, or of
one that is not valid. -/
def Refused (data : Bytes) : Prop :=
  MAX_MANIFEST_SIZE < data.length ∨ ∀ m, X.manifestOfJson data = .ok m → m.validate ≠ .ok ()

/-- The file of `id` has the bytes that the id names, or refused ones. -/
def Genuine (fs : Fs) (id : Hash) : Prop :=
  ∀ data, fs.read (st.manifestPath id) = .ok data → X.blake3 data = id ∨ Refused X data

/-- The file of `id` has another text of the manifest that the id names. -/
def Respelled (fs : Fs) (id : Hash) : Prop :=
  ∃ data bytes, fs.read (st.manifestPath id) = .ok data ∧ X.blake3 bytes = id ∧ bytes ≠ data ∧
    bytes.length ≤ MAX_MANIFEST_SIZE ∧ X.manifestOfJson bytes = X.manifestOfJson data

section Named

variable {X st} {fs : Fs} {id : Hash} {data : Bytes} {m : Manifest}

/-- A manifest is refused when it cannot be decoded and validated. -/
theorem refused_iff : Refused X data ↔ ∀ m, Manifest.decode X data ≠ .ok m := by
  constructor
  · intro h m hm
    obtain ⟨hlen, hjson, hvalid⟩ := Manifest.decode_eq_ok.mp hm
    rcases h with hlong | hinvalid
    · omega
    · exact hinvalid m hjson hvalid
  · intro h
    by_cases hlen : data.length ≤ MAX_MANIFEST_SIZE
    · right
      intro m hjson hvalid
      exact h m (Manifest.decode_eq_ok.mpr ⟨hlen, hjson, hvalid⟩)
    · left
      omega

/-- Loading a snapshot reads its file and decodes it. -/
theorem load_eq_decode : load X st fs id = .ok m ↔
    ∃ data, fs.read (st.manifestPath id) = .ok data ∧ Manifest.decode X data = .ok m := by
  unfold load Store.getManifestBytes Store.readBlob
  cases hread : fs.read (st.manifestPath id) with
  | ok data =>
      simp only [Except.ok.injEq]
      constructor
      · exact fun h => ⟨data, rfl, h⟩
      · rintro ⟨_, rfl, h⟩
        exact h
  | error e =>
      refine iff_of_false ?_ ?_
      · cases e <;> simp
      · simp

/-- A genuine file is loaded as what its id names. -/
theorem loadsNamed_of_genuine (h : Genuine X st fs id) : LoadsNamed X st fs id := by
  intro m hload
  obtain ⟨data, hread, hdecode⟩ := load_eq_decode.mp hload
  rcases h data hread with hhash | hrefused
  · exact ⟨data, hhash, hdecode⟩
  · exact absurd hdecode (refused_iff.mp hrefused m)

end Named

/-- **When a loaded snapshot is the one its id names.**  `load` hashes nothing,
so this is up to the file: its bytes have the hash `id`, or they are refused, or
they are another text of the manifest whose bytes have the hash `id`. -/
theorem load_named_iff (fs : Fs) (id : Hash) :
    LoadsNamed X st fs id ↔ Genuine X st fs id ∨ Respelled X st fs id := by
  constructor
  · intro h
    by_cases hgenuine : Genuine X st fs id
    · exact Or.inl hgenuine
    · right
      -- some bytes of the file are accepted, and have another hash
      obtain ⟨data, hother⟩ := not_forall.mp hgenuine
      obtain ⟨hread, hother'⟩ := Classical.not_imp.mp hother
      obtain ⟨hhash, haccepted⟩ := not_or.mp hother'
      obtain ⟨m, hm⟩ := not_forall.mp (fun hall => haccepted (refused_iff.mpr hall))
      have hdecode : Manifest.decode X data = .ok m := not_not.mp hm
      obtain ⟨bytes, hbytes, hnamed⟩ := h m (load_eq_decode.mpr ⟨data, hread, hdecode⟩)
      obtain ⟨hlen, hjson, _⟩ := Manifest.decode_eq_ok.mp hnamed
      refine ⟨data, bytes, hread, hbytes, ?_, hlen,
        hjson.trans (Manifest.decode_eq_ok.mp hdecode).2.1.symm⟩
      intro heq
      exact hhash (heq ▸ hbytes)
  · rintro (hgenuine | hrespelled)
    · exact loadsNamed_of_genuine hgenuine
    · obtain ⟨data, bytes, hread, hbytes, _, hlen, hsame⟩ := hrespelled
      intro m hload
      obtain ⟨data', hread', hdecode⟩ := load_eq_decode.mp hload
      cases hread.symm.trans hread'
      obtain ⟨_, hjson, hvalid⟩ := Manifest.decode_eq_ok.mp hdecode
      exact ⟨bytes, hbytes, Manifest.decode_eq_ok.mpr ⟨hlen, hsame.trans hjson, hvalid⟩⟩

/-- Two snapshots, stored as `one` and `two`. -/
def twoManifests : List (Bytes × Manifest) :=
  [(str "one", smallManifest none none []), (str "two", smallManifest none (some (str "bot")) [])]

/-- A fabric whose manifest file of snapshot `one` has this content. -/
def overwrittenFabric (content : Bytes) : Fs :=
  Fs.build (Store.fabricNodes ⟨[str "w"]⟩ [] ++
    Store.blobNodes ⟨[str "w"]⟩ (str "manifests") (padHash (str "one")) content)

/-- A manifest file overwritten with another snapshot is loaded under the old id. -/
theorem load_accepts_overwritten :
    ¬ LoadsNamed (smallCrates twoManifests [] []) ⟨[str "w"]⟩
      (overwrittenFabric (str "two")) (padHash (str "one")) := by
  intro h
  obtain ⟨bytes, hbytes, hdecode⟩ := h (smallManifest none (some (str "bot")) [])
    (by decide +kernel)
  obtain ⟨_, hjson, _⟩ := Manifest.decode_eq_ok.mp hdecode
  have hbytes2 : bytes = str "two" := by
    have htable : tableDecode twoManifests bytes = .ok (smallManifest none (some (str "bot")) []) :=
      hjson
    unfold tableDecode twoManifests at htable
    by_cases hone : str "one" = bytes
    · simp only [List.find?_cons, hone, decide_true] at htable
      cases htable
    · by_cases htwo : str "two" = bytes
      · exact htwo.symm
      · simp [hone, htwo] at htable
  rw [hbytes2] at hbytes
  exact absurd hbytes (by decide +kernel)

/-- HEAD's parent chain, newest first, and the ids met.  Every round meets a
new id, so `fuel` is not used up before the 2²⁵⁶ ids are. -/
def headChain (fs : Fs) : Nat → List Hash → Option Hash →
    Except Error (List (Hash × Manifest) × List Hash)
  | 0, seen, _ => .ok ([], seen)
  | _ + 1, seen, none => .ok ([], seen)
  | fuel + 1, seen, some id =>
      if id ∈ seen then .ok ([], seen)
      else match load X st fs id with
        | .error e => .error e
        | .ok m => match headChain fs fuel (id :: seen) m.parent with
          | .error e => .error e
          | .ok (out, seen) => .ok ((id, m) :: out, seen)

/-- The hash-named files under the fan-out directory `kind`. -/
def storedIds (kind : Name) (fs : Fs) : Except Error (List Hash) :=
  if fs.isDir (st.fabricDir ++ [kind]) then
    match fs.readDir (st.fabricDir ++ [kind]) with
    | .error e => .error (.io e)
    | .ok fans => do
        let lists ← scan fans fun fan =>
          match fs.symlinkMetadata (st.fabricDir ++ [kind, fan]) with
          | .error e => .error (.io e)
          | .ok .dir =>
              match fs.readDir (st.fabricDir ++ [kind, fan]) with
              | .error e => .error (.io e)
              | .ok names => .ok (some (names.filterMap fun n =>
                  if isHashName (lossy fan ++ lossy n) then
                    (parseHash (lossy fan ++ lossy n)).toOption
                  else none))
          | .ok _ => .ok none
        .ok lists.flatten
  else .ok []

/-- Snapshots from HEAD back, then the loadable manifests it does not reach,
newest first. -/
def list (fs : Fs) : Except Error (List (Hash × Manifest)) := do
  let head ← st.head fs
  let (chain, seen) ← headChain X st fs (2 ^ 256) [] head
  let ids ← storedIds st (str "manifests") fs
  let orphans := ids.eraseDups.filterMap fun id =>
    if id ∈ seen then none
    else match load X st fs id with
      | .ok m => some (id, m)
      | .error _ => none
  .ok ((chain ++ orphans).insertionSort fun a b => b.2.timestampSecs ≤ a.2.timestampSecs)

/-! ## Creating -/

/-- Should this path be excluded from snapshots? -/
def excluded (rel : Path) : Bool := excludedBy excludedNames rel

/-- The patterns in a `.fabricignore` file with this content. -/
def parsePatterns (s : Bytes) : List Bytes :=
  ((fileLines s).map trim).filter fun l => l ≠ [] ∧ l.head? ≠ some 35

/-- Read `.fabricignore` patterns; one that cannot be read has none. -/
def ignorePatterns (root : Path) (fs : Fs) : List Bytes :=
  match fs.readToString (root ++ [str ".fabricignore"]) with
  | .ok s => parsePatterns s
  | .error _ => []

/-- Does a pattern occur in the path? -/
def ignored (patterns : List Bytes) (relStr : Bytes) : Bool :=
  patterns.any fun p => contains p relStr

/-- Open a file without following a link in its last component, and read it. -/
def readNofollow (path : Path) (fs : Fs) : Except Error Bytes :=
  match fs.symlinkMetadata path with
  | .ok (.file d) => .ok d.bytes
  | .ok (.symlink _) => .error (.io .filesystemLoop)
  | .ok .dir => .error (.io .isADirectory)
  | .error e => .error (.io e)

/-- The pieces of a file, in order. -/
def chunksOf (data : Bytes) : List Bytes := X.fastcdc CDC_MIN CDC_AVG CDC_MAX data

/-- Chunk a file into the store: content hash, chunk hashes and size. -/
def chunkFile (path : Path) : Sys (Hash × List Hash × Nat) := do
  let data ← look (readNofollow path)
  let chunks ← collect (chunksOf X data) fun piece => do
    let h ← st.putObject X piece
    pure (some h)
  pure (X.blake3 (chunksOf X data).flatten, chunks, (chunksOf X data).flatten.length)

/-- Size and time of the file at `path`, which tell whether it changed. -/
def fileStamp (path : Path) (fs : Fs) : Except Error (Nat × Nat) :=
  match fs.symlinkMetadata path with
  | .ok (.file d) => .ok (d.bytes.length, unixSecs d.mtime * 1000000000 + subsecNanos d.mtime)
  | .ok _ => .ok (0, 0)
  | .error e => .error (.io e)

def QUIESCE_RETRIES : Nat := 3

/-- Chunk a file whose stamp is the same before and after, with `n` retries;
the flag says that it was still changing. -/
def chunkFileStable (path : Path) : Nat → Sys ((Hash × List Hash × Nat) × Bool)
  | 0 => do
      let before ← look (fileStamp path)
      let captured ← chunkFile X st path
      let after ← look (fileStamp path)
      pure (captured, before ≠ after)
  | n + 1 => do
      let before ← look (fileStamp path)
      let captured ← chunkFile X st path
      let after ← look (fileStamp path)
      if before = after then pure (captured, false) else chunkFileStable path n

/-- What the walk makes of one file: the entry it contributes, unless its
content is purged, and its path if it kept changing. -/
structure Capture where
  entry : Option FileEntry
  unstable : Option Bytes

/-- Capture the regular file `d` at `rel`. -/
def captureFile (scanRoot : Path) (tombs : List Tombstone) (rel : Path) (d : FileData) :
    Sys Capture := do
  let ((content, chunks, size), changing) ←
    chunkFileStable X st (scanRoot ++ rel) QUIESCE_RETRIES
  let unstable := if changing then some (relStr rel) else none
  -- the content check comes after the chunks are in the store
  if tombs.any fun t => t.content = hashHex content then pure ⟨none, unstable⟩
  else pure ⟨some { path := relStr rel
                    mode := d.mode % 512
                    size := size
                    mtimeSecs := unixSecs d.mtime
                    mtimeNanos := subsecNanos d.mtime
                    content := content
                    chunks := chunks }, unstable⟩

/-- One step of the walk. -/
def captureEntry (scanRoot : Path) (patterns : List Bytes) (tombs : List Tombstone)
    (rel : Path) : Sys (Option Capture) := do
  let node ← look fun fs => .ok (fs.get (scanRoot ++ rel))
  match node with
  | some (.file d) =>
      if excluded rel then pure none
      else if ignored patterns (relStr rel) then pure none
      else if tombs.any fun t => t.path = relStr rel then pure none
      else do
        let _ ← look fun _ => sanitizeRel (relStr rel)
        let capture ← captureFile X st scanRoot tombs rel d
        pure (some capture)
  | _ => pure none

/-- Walk the tree under `scanRoot` and make its manifest. -/
def buildManifest (scanRoot : Path) (message : Bytes) (actor : Option Bytes) :
    Sys Manifest := do
  let patterns ← look fun fs => .ok (ignorePatterns scanRoot fs)
  let tombs ← look (tombstones X st)
  let entries ← look fun fs => .ok (fs.walk scanRoot)
  let captures ← collect entries (captureEntry X st scanRoot patterns tombs)
  let parent ← look st.head
  let m ← get
  pure { version := MANIFEST_VERSION
         parent := parent
         timestampSecs := unixSecs m.clock
         message := message
         files := captures.filterMap Capture.entry
         unstable := captures.filterMap Capture.unstable
         actor := actor }

/-- Store a manifest and make it HEAD. -/
def storeManifest (manifest : Manifest) : Sys Hash := do
  let id ← st.putManifest X (manifest.serialize X)
  st.setHead (some id)
  pure id

/-- Walk the tree and snapshot it.  Returns the new snapshot id. -/
def createFromActor (scanRoot : Path) (message : Bytes) (actor : Option Bytes) : Sys Hash := do
  let manifest ← buildManifest X st scanRoot message actor
  storeManifest X st manifest

end Snapshot

end Respawn
