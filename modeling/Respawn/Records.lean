import Respawn.Basic

/-!
# Records and the crates that encode them

The records the fabric stores (`Manifest`, `AuditEntry`, `Tombstone`, a purge
certificate) and `Manifest::validate`.  What other crates compute is one
structure, `Crates`: the hash function, the compressor, the chunker, the JSON
codecs and the signature scheme.  Nothing is assumed of it here; a theorem
that relies on documented behaviour of a crate says so in a hypothesis.
-/

namespace Respawn

open ByteStr FileTree

/-- Current manifest version. -/
def MANIFEST_VERSION : Nat := 3

/-- Oldest manifest version this build will load. -/
def MIN_MANIFEST_VERSION : Nat := 2

/-- Hard caps applied when accepting a manifest. -/
def MAX_MANIFEST_FILES : Nat := 2000000

def MAX_MANIFEST_CHUNKS : Nat := 8000000

/-- Largest manifest that is decoded. -/
def MAX_MANIFEST_SIZE : Nat := 256 * 1024 * 1024

/-- One file of a snapshot. -/
structure FileEntry where
  path : Bytes
  mode : Nat
  size : Nat
  mtimeSecs : Nat
  mtimeNanos : Nat
  content : Hash
  chunks : List Hash
  deriving DecidableEq

/-- A snapshot. -/
structure Manifest where
  version : Nat
  parent : Option Hash
  timestampSecs : Nat
  message : Bytes
  files : List FileEntry
  unstable : List Bytes
  actor : Option Bytes
  deriving DecidableEq

/-- A line of the audit log. -/
structure AuditEntry where
  seq : Nat
  ts : Nat
  event : Bytes
  detail : Bytes
  prev : Bytes
  hash : Bytes
  deriving DecidableEq

/-- A path and content the fabric must never snapshot or restore again. -/
structure Tombstone where
  path : Bytes
  content : Bytes
  purgeId : Bytes
  ts : Nat
  deriving DecidableEq

/-- What a purge certificate states. -/
structure PurgePayload where
  kind : Bytes
  version : Nat
  fabricId : Bytes
  path : Bytes
  content : Bytes
  chunksRemoved : Nat
  chunksRetainedShared : Nat
  manifestsTouched : Nat
  auditLen : Nat
  auditTip : Bytes
  ts : Nat
  deriving DecidableEq

/-- A signed certificate of erasure. -/
structure PurgeCert where
  format : Bytes
  pubkey : Bytes
  payload : Bytes
  sig : Bytes
  deriving DecidableEq

/-- The functions of other crates.  A decoder's error is its error text;
`zstdRead n` reads at most `n` bytes of the decompressed stream; `fastcdc` cuts
a byte stream under the bounds minimum, average and maximum. -/
structure Crates where
  blake3 : Bytes → Hash
  zstdEncode : Bytes → Bytes
  zstdRead : Nat → Bytes → Except Errno Bytes
  fastcdc : Nat → Nat → Nat → Bytes → List Bytes
  manifestToJson : Manifest → Bytes
  manifestOfJson : Bytes → Except Bytes Manifest
  auditToJson : AuditEntry → Bytes
  auditOfJson : Bytes → Except Bytes AuditEntry
  tupleToJson : Nat × Nat × Bytes × Bytes × Bytes → Bytes
  tombstoneToJson : Tombstone → Bytes
  tombstoneOfJson : Bytes → Except Bytes Tombstone
  payloadToJson : PurgePayload → Bytes
  certToJson : PurgeCert → Bytes
  verifyingKey : Bytes → Bytes
  sign : Bytes → Bytes → Bytes

/-! ## Manifests -/

/-- The entry for a path in the map collected from a list of entries: of
several, the last. -/
def entryAt (files : List FileEntry) (path : Bytes) : Option FileEntry :=
  files.reverse.find? fun fe => fe.path = path

/-- The entry found at a path is one of the entries and has that path. -/
theorem mem_of_entryAt {files : List FileEntry} {p : Bytes} {fe : FileEntry}
    (h : entryAt files p = some fe) : fe ∈ files ∧ fe.path = p := by
  refine ⟨List.mem_reverse.mp (List.mem_of_find?_eq_some h), ?_⟩
  have hp := List.find?_some h
  simpa using hp

theorem entryAt_eq_none {files : List FileEntry} {p : Bytes} :
    entryAt files p = none ↔ ∀ fe ∈ files, fe.path ≠ p := by
  simp [entryAt, List.find?_eq_none]

theorem not_mem_paths_iff {files : List FileEntry} {p : Bytes} :
    p ∉ files.map FileEntry.path ↔ entryAt files p = none := by
  rw [entryAt_eq_none, List.mem_map]
  simp

/-- Where all entries for a path are the same, that is the entry. -/
theorem entryAt_eq_some {files : List FileEntry} {p : Bytes} {fe : FileEntry} (hfe : fe ∈ files)
    (hp : fe.path = p) (hall : ∀ f ∈ files, f.path = p → f = fe) : entryAt files p = some fe := by
  cases h : entryAt files p with
  | none => exact absurd hp (entryAt_eq_none.mp h fe hfe)
  | some f =>
      obtain ⟨hf, hfp⟩ := mem_of_entryAt h
      rw [hall f hf hfp]

/-- The loop of `validate`, with the number of chunks counted so far. -/
def validateFiles (total : Nat) : List FileEntry → Except Error Unit
  | [] => .ok ()
  | f :: rest =>
      match sanitizeRel f.path with
      | .error e => .error e
      | .ok _ =>
          if total + f.chunks.length > MAX_MANIFEST_CHUNKS then
            .error (.corrupt (str "manifest exceeds chunk count cap"))
          else if f.chunks = [] ∧ f.size > 0 then
            .error (.corrupt (str "non-empty file with no chunks: " ++ f.path))
          else validateFiles (total + f.chunks.length) rest

namespace Manifest

/-- Reject manifests that could not have been produced by `create`. -/
def validate (m : Manifest) : Except Error Unit :=
  if m.version > MANIFEST_VERSION ∨ m.version < MIN_MANIFEST_VERSION then
    .error (.corrupt (str "unsupported manifest version " ++ decimal m.version))
  else if m.files.length > MAX_MANIFEST_FILES then
    .error (.corrupt (str "manifest exceeds file count cap"))
  else validateFiles 0 m.files

def serialize (X : Crates) (m : Manifest) : Bytes := X.manifestToJson m

def deserialize (X : Crates) (data : Bytes) : Except Error Manifest :=
  if data.length > MAX_MANIFEST_SIZE then .error (.corrupt (str "manifest exceeds size cap"))
  else match X.manifestOfJson data with
    | .ok m => .ok m
    | .error e => .error (.corrupt (str "json: " ++ e))

/-- Decode and validate: what `load` and `pull` make of manifest bytes. -/
def decode (X : Crates) (data : Bytes) : Except Error Manifest :=
  match deserialize X data with
  | .error e => .error e
  | .ok m => match m.validate with
    | .error e => .error e
    | .ok () => .ok m

/-- What is decoded is not too long, what the codec read, and valid. -/
theorem decode_eq_ok {X : Crates} {data : Bytes} {m : Manifest} : decode X data = .ok m ↔
    data.length ≤ MAX_MANIFEST_SIZE ∧ X.manifestOfJson data = .ok m ∧ m.validate = .ok () := by
  unfold decode deserialize
  by_cases hlen : data.length > MAX_MANIFEST_SIZE
  · rw [if_pos hlen]
    refine iff_of_false (by simp) ?_
    intro h
    omega
  · rw [if_neg hlen]
    cases hjson : X.manifestOfJson data with
    | error e => simp
    | ok mf =>
        simp only [Except.ok.injEq]
        cases hvalid : mf.validate with
        | error e =>
            refine iff_of_false (by simp) ?_
            rintro ⟨_, rfl, hok⟩
            rw [hvalid] at hok
            cases hok
        | ok u =>
            simp only [Except.ok.injEq]
            constructor
            · rintro rfl
              exact ⟨Nat.le_of_not_lt hlen, rfl, hvalid⟩
            · exact fun h => h.2.1

theorem decode_ok {X : Crates} {data : Bytes} {m : Manifest} (h : decode X data = .ok m) :
    X.manifestOfJson data = .ok m ∧ m.validate = .ok () := (decode_eq_ok.mp h).2

end Manifest

/-- The paths of a manifest that was validated can be read. -/
theorem sanitizeRel_of_validateFiles {total : Nat} {files : List FileEntry} {u : Unit}
    (h : validateFiles total files = .ok u) {f : FileEntry} (hf : f ∈ files) :
    ∃ rel, sanitizeRel f.path = .ok rel := by
  induction files generalizing total with
  | nil => simp at hf
  | cons g rest ih =>
      unfold validateFiles at h
      split at h
      · cases h
      case _ rel hrel =>
        split at h
        · cases h
        · split at h
          · cases h
          · rcases List.mem_cons.mp hf with heq | hin
            · exact ⟨rel, heq ▸ hrel⟩
            · exact ih h hin

/-- Every path of a valid manifest is a proper relative path. -/
theorem Manifest.sanitizeRel_of_validate {m : Manifest} {u : Unit} (h : m.validate = .ok u)
    {f : FileEntry} (hf : f ∈ m.files) : ∃ rel, sanitizeRel f.path = .ok rel := by
  unfold Manifest.validate at h
  split at h
  · cases h
  · split at h
    · cases h
    · exact sanitizeRel_of_validateFiles h hf

/-! ## Small crates

Stand-ins for the other crates on which results are evaluated: the hash is the
padded beginning of a short string, nothing is compressed, a file is one
chunk, and records are encoded by tables. -/

def padHash (b : Bytes) : Hash :=
  ⟨(b ++ List.replicate 32 0).take 32, by simp⟩

/-- Encode by looking up a table. -/
def tableEncode {α : Type} [DecidableEq α] (table : List (Bytes × α)) (a : α) : Bytes :=
  match table.find? fun e => e.2 = a with
  | some e => e.1
  | none => []

/-- Decode by looking up a table. -/
def tableDecode {α : Type} (table : List (Bytes × α)) (b : Bytes) : Except Bytes α :=
  match table.find? fun e => e.1 = b with
  | some e => .ok e.2
  | none => .error (str "expected value")

def smallCrates (manifests : List (Bytes × Manifest)) (entries : List (Bytes × AuditEntry))
    (tombs : List (Bytes × Tombstone)) : Crates where
  blake3 := padHash
  zstdEncode := id
  zstdRead n b := .ok (b.take n)
  fastcdc _ _ _ b := if b = [] then [] else [b]
  manifestToJson := tableEncode manifests
  manifestOfJson := tableDecode manifests
  auditToJson := tableEncode entries
  auditOfJson := tableDecode entries
  tupleToJson t := decimal t.1 ++ decimal t.2.1 ++ t.2.2.1 ++ t.2.2.2.1 ++ t.2.2.2.2
  tombstoneToJson := tableEncode tombs
  tombstoneOfJson := tableDecode tombs
  payloadToJson p := p.kind ++ p.path
  certToJson c := c.payload ++ c.sig
  verifyingKey k := k
  sign k m := k ++ m

/-- An entry for a file of one chunk. -/
def smallEntry (path content : Bytes) : FileEntry :=
  { path := path
    mode := 0o644
    size := content.length
    mtimeSecs := 0
    mtimeNanos := 0
    content := padHash content
    chunks := [padHash content] }

/-- A snapshot on the parent with these bytes. -/
def smallManifest (parent : Option Bytes) (actor : Option Bytes) (files : List FileEntry) :
    Manifest :=
  { version := MANIFEST_VERSION
    parent := parent.map padHash
    timestampSecs := 0
    message := []
    files := files
    unstable := []
    actor := actor }

end Respawn
