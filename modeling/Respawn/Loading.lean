import Respawn.Admission
import Respawn.Reach

/-!
# Loading what was created

A reader caps the bytes of a manifest, its files and its chunks; the writer caps
nothing.  So HEAD can come to name a manifest that no command loads again, and
does exactly when the tree does not fit (`load_created_iff`).
-/

namespace Respawn

open ByteStr FileTree StateLogic

/-! ## What fits -/

/-- The number of chunks of all files together. -/
def chunkCount (files : List FileEntry) : Nat := (files.map fun fe => fe.chunks.length).sum

/-- The manifest is within the caps of a reader. -/
structure Manifest.Fits (X : Crates) (mf : Manifest) : Prop where
  size : (mf.serialize X).length ≤ MAX_MANIFEST_SIZE
  files : mf.files.length ≤ MAX_MANIFEST_FILES
  chunks : chunkCount mf.files ≤ MAX_MANIFEST_CHUNKS

/-- What `validate` asks of one file apart from the caps. -/
structure FileEntry.Proper (fe : FileEntry) : Prop where
  path : ∃ rel, sanitizeRel fe.path = .ok rel
  chunked : fe.chunks = [] → fe.size = 0

/-- Of proper files the loop of `validate` only counts the chunks. -/
theorem validateFiles_eq_ok {files : List FileEntry} (hproper : ∀ fe ∈ files, fe.Proper)
    {total : Nat} (htotal : total ≤ MAX_MANIFEST_CHUNKS) :
    validateFiles total files = .ok () ↔ total + chunkCount files ≤ MAX_MANIFEST_CHUNKS := by
  induction files generalizing total with
  | nil => simpa [validateFiles, chunkCount] using htotal
  | cons fe rest ih =>
      have hfe := hproper fe (by simp)
      obtain ⟨rel, hrel⟩ := hfe.path
      have hcount : chunkCount (fe :: rest) = fe.chunks.length + chunkCount rest := by
        simp [chunkCount]
      have hchunked : ¬ (fe.chunks = [] ∧ fe.size > 0) := by
        intro h
        have hsize := hfe.chunked h.1
        omega
      simp only [validateFiles, hrel]
      by_cases hcap : total + fe.chunks.length > MAX_MANIFEST_CHUNKS
      · rw [if_pos hcap, hcount]
        constructor
        · intro h
          cases h
        · intro h
          omega
      · rw [if_neg hcap, if_neg hchunked,
          ih (fun f hf => hproper f (List.mem_cons_of_mem _ hf)) (by omega), hcount]
        omega

/-- What is decoded is no longer than a reader takes. -/
theorem Manifest.length_of_decode {X : Crates} {data : Bytes} {mf : Manifest}
    (h : Manifest.decode X data = .ok mf) : data.length ≤ MAX_MANIFEST_SIZE := by
  by_cases hsize : data.length > MAX_MANIFEST_SIZE
  · unfold Manifest.decode Manifest.deserialize at h
    rw [if_pos hsize] at h
    cases h
  · omega

/-- A manifest of this version and of proper files is valid when it is within
the caps. -/
theorem Manifest.validate_iff {mf : Manifest} (hversion : mf.version = MANIFEST_VERSION)
    (hproper : ∀ fe ∈ mf.files, fe.Proper) : mf.validate = .ok () ↔
      mf.files.length ≤ MAX_MANIFEST_FILES ∧ chunkCount mf.files ≤ MAX_MANIFEST_CHUNKS := by
  have hloop := validateFiles_eq_ok hproper (Nat.zero_le MAX_MANIFEST_CHUNKS)
  rw [Nat.zero_add] at hloop
  have hknown : ¬ (mf.version > MANIFEST_VERSION ∨ mf.version < MIN_MANIFEST_VERSION) := by
    rw [hversion]
    decide
  unfold Manifest.validate
  rw [if_neg hknown]
  by_cases hfiles : mf.files.length > MAX_MANIFEST_FILES
  · rw [if_pos hfiles]
    constructor
    · intro h
      cases h
    · intro h
      omega
  · rw [if_neg hfiles, hloop]
    constructor
    · intro h
      exact ⟨by omega, h⟩
    · intro h
      exact h.2

/-- A manifest of this version and of proper files is decoded when it fits. -/
theorem Manifest.decode_serialize_iff {X : Crates} {mf : Manifest}
    (hversion : mf.version = MANIFEST_VERSION) (hproper : ∀ fe ∈ mf.files, fe.Proper)
    (hjson : X.manifestOfJson (mf.serialize X) = .ok mf) :
    Manifest.decode X (mf.serialize X) = .ok mf ↔ mf.Fits X := by
  have hvalid := Manifest.validate_iff hversion hproper
  unfold Manifest.decode Manifest.deserialize
  by_cases hsize : (mf.serialize X).length > MAX_MANIFEST_SIZE
  · rw [if_pos hsize]
    constructor
    · intro h
      cases h
    · intro h
      have hcap := h.size
      omega
  · rw [if_neg hsize, hjson]
    simp only
    constructor
    · intro h
      split at h
      · cases h
      case _ hok =>
        have hcaps := hvalid.mp hok
        exact ⟨by omega, hcaps.1, hcaps.2⟩
    · intro h
      rw [hvalid.mpr ⟨h.files, h.chunks⟩]

namespace Snapshot

variable {X : Crates} {st : Store}

/-! ## What is created -/

/-- The entries of a tree are proper when their paths are. -/
theorem proper_of_treeFiles {root : Path} {tombs : List Tombstone} {fs : Fs} {fe : FileEntry}
    (hfe : fe ∈ treeFiles X root tombs fs) (hpath : ∃ rel, sanitizeRel fe.path = .ok rel) :
    fe.Proper := by
  refine ⟨hpath, ?_⟩
  obtain ⟨rel, _, hcap⟩ := List.mem_filterMap.mp hfe
  obtain ⟨d, _, _, _, rfl⟩ := captured_eq_some.mp hcap
  intro hnone
  have hchunks : chunksOf X d.bytes = [] := List.map_eq_nil_iff.mp hnone
  simp [fileEntry, hchunks]

/-- Storing an object leaves the clock alone. -/
theorem putObject_clock (data : Bytes) (t : Int) :
    Keeps (fun m : Machine => st.Real m.fs ∧ m.clock = t) (st.putObject X data) := by
  intro m hm
  obtain ⟨hreal, hclock⟩ := hm
  have hpath : st.fabricDir <+: (st.objectPath (X.blake3 data)).dropLast :=
    Store.fabricDir_prefix_fanPath _ _
  have hne : st.objectPath (X.blake3 data) ≠ [] := Store.fanPath_ne_nil _ _
  unfold Store.putObject
  apply After.bind (P := fun _ m' => st.Real m'.fs ∧ m'.clock = t)
  · apply (Store.putBlob_after hreal hpath hne (Store.fanPath_names hreal (by decide) _)).mono
    · intro _ m' h
      rcases h with ⟨_, rfl⟩ | ⟨_, hwrote⟩
      · exact ⟨hreal, hclock⟩
      · exact ⟨hreal.wrote hpath hne hwrote, hwrote.ran.events.1.trans hclock⟩
    · intro _ m' h
      exact ⟨hreal.missed hpath h.2, h.2.ran.events.1.trans hclock⟩
  · intro _ m' h
    exact h

/-- What HEAD says when its file holds a hash. -/
theorem head_of_file {fs : Fs} {h : Hash} {d : FileData}
    (hfile : fs.get st.headPath = some (.file d)) (hbytes : d.bytes = hashHex h) :
    st.head fs = .ok (some h) := by
  have hsome : hashHex h ≠ [] := by
    intro hnil
    have hlen := hashHex_length h
    rw [hnil] at hlen
    exact absurd hlen (by decide)
  have hutf8 : validUtf8 (hashHex h) = true := validUtf8_hexEncode _
  have htrim : trim (hashHex h) = hashHex h := trim_hexEncode _
  unfold Store.head Fs.readToString
  rw [Fs.read_of_get hfile, hbytes]
  simp only [hutf8, if_true, htrim, if_neg hsome, parseHash_hashHex]

/-- Moving HEAD moves it. -/
theorem head_of_setHead {id : Hash} {m m' : Machine} (hreal : st.Real m.fs)
    (h : st.setHead (some id) m = .ok () m') :
    ∃ d, m'.fs.get st.headPath = some (.file d) ∧ d.bytes = hashHex id := by
  have hwrote := (Store.atomicWrite_after (by simp)
    (Purge.record_names hreal (by decide))
    (fun pre hpre => hreal.noLink (by rw [List.dropLast_concat]) hpre)).ok h
  exact hwrote.file

/-- What storing a manifest leaves: its file, and its hash in HEAD. -/
structure Stored (X : Crates) (st : Store) (mf : Manifest) (id : Hash) (fs fs' : Fs) : Prop where
  named : id = X.blake3 (mf.serialize X)
  head : st.head fs' = .ok (some id)
  present : fs'.get (st.manifestPath id) ≠ none
  old : fs.get (st.manifestPath id) ≠ none →
    fs'.get (st.manifestPath id) = fs.get (st.manifestPath id)
  fresh : fs.get (st.manifestPath id) = none →
    ∃ d, fs'.get (st.manifestPath id) = some (.file d) ∧ d.bytes = mf.serialize X

/-- **Storing a manifest** puts its file in its place and moves HEAD to it. -/
theorem storeManifest_ok {mf : Manifest} {id : Hash} {m m' : Machine} (hreal : st.Real m.fs)
    (hstore : storeManifest X st mf m = .ok id m') : Stored X st mf id m.fs m'.fs := by
  obtain ⟨h, m₁, hput, hrest⟩ := bind_eq_ok.mp hstore
  obtain ⟨_, m₂, hhead, hpure⟩ := bind_eq_ok.mp hrest
  cases hpure
  obtain ⟨_, m₃, hblob, hid⟩ := bind_eq_ok.mp hput
  cases hid
  have hpath : st.fabricDir <+: (st.manifestPath (X.blake3 (mf.serialize X))).dropLast :=
    Store.fabricDir_prefix_fanPath _ _
  have hne : st.manifestPath (X.blake3 (mf.serialize X)) ≠ [] := Store.fanPath_ne_nil _ _
  have hafter := (Store.putBlob_after hreal hpath hne
    (Store.fanPath_names hreal (by decide) _)).ok hblob
  have hreal₁ : st.Real m₁.fs := by
    rcases hafter with ⟨_, rfl⟩ | ⟨_, hwrote⟩
    · exact hreal
    · exact hreal.wrote hpath hne hwrote
  -- HEAD is written beside the manifests
  have hkept : m'.fs.get (st.manifestPath (X.blake3 (mf.serialize X))) =
      m₁.fs.get (st.manifestPath (X.blake3 (mf.serialize X))) := by
    have htouched := (Store.setHead_touching _ m₁ hreal₁).ok hhead
    exact htouched.frame _ (Store.not_within (by decide) (by decide))
  have hnow : st.head m'.fs = .ok (some (X.blake3 (mf.serialize X))) := by
    obtain ⟨d, hd, hbytes⟩ := head_of_setHead hreal₁ hhead
    exact head_of_file hd hbytes
  have hfresh : m.fs.get (st.manifestPath (X.blake3 (mf.serialize X))) = none →
      ∃ d, m'.fs.get (st.manifestPath (X.blake3 (mf.serialize X))) = some (.file d) ∧
        d.bytes = mf.serialize X := by
    intro hnone
    rw [hkept]
    rcases hafter with ⟨hsome, _⟩ | ⟨_, hwrote⟩
    · exact absurd hnone hsome
    · exact hwrote.file
  have hold : m.fs.get (st.manifestPath (X.blake3 (mf.serialize X))) ≠ none →
      m'.fs.get (st.manifestPath (X.blake3 (mf.serialize X))) =
        m.fs.get (st.manifestPath (X.blake3 (mf.serialize X))) := by
    intro hsome
    rw [hkept]
    rcases hafter with ⟨_, rfl⟩ | ⟨hnone, _⟩
    · rfl
    · exact absurd hnone hsome
  refine ⟨rfl, hnow, ?_, hold, hfresh⟩
  by_cases hnone : m.fs.get (st.manifestPath (X.blake3 (mf.serialize X))) = none
  · obtain ⟨d, hd, _⟩ := hfresh hnone
    rw [hd]
    exact Option.some_ne_none _
  · rw [hold hnone]
    exact hnone

section Create

variable {root : Path} {message : Bytes} {actor : Option Bytes} {mf : Manifest} {m m₁ m' : Machine}

/-- **The manifest built** is that of the tree, made at the time of the clock,
and its files are proper. -/
theorem buildManifest_ok (hroot : ∀ rel, st.fabricDir <+: root ++ rel → excluded rel = true)
    (hreal : st.Real m.fs) (hbuild : buildManifest X st root message actor m = .ok mf m₁) :
    ∃ tombs parent, tombstones X st m.fs = .ok tombs ∧ st.head m.fs = .ok parent ∧
      mf = treeManifest X root message actor tombs parent m.fs (unixSecs m.clock) ∧
      (∀ fe ∈ mf.files, fe.Proper) ∧ st.Real m₁.fs ∧
      ∀ h, m₁.fs.get (st.manifestPath h) = m.fs.get (st.manifestPath h) := by
  obtain ⟨tombs, parent, htombs, hparent, hmf, hpaths, hstep⟩ :=
    (buildManifest_from hroot hreal).ok hbuild
  have hclock : m₁.clock = m.clock :=
    ((buildManifest_keeps (fun data => putObject_clock data m.clock) m ⟨hreal, rfl⟩).ok hbuild).2
  rw [hclock] at hmf
  refine ⟨tombs, parent, htombs, hparent, hmf, ?_, hstep.real, ?_⟩
  · intro fe hfe
    have hin : fe ∈ treeFiles X root tombs m.fs := by
      rw [hmf] at hfe
      exact hfe
    exact proper_of_treeFiles hin (hpaths fe hfe)
  · intro h
    apply hstep.frame
    intro hS
    obtain ⟨⟨rest, heq⟩, _⟩ := hS
    rw [List.append_assoc] at heq
    have hname := (List.cons.inj (List.append_cancel_left heq)).1
    exact absurd hname (by decide)

/-- Where nothing lies under the manifests there is none. -/
theorem no_manifest_of_keys {fs : Fs}
    (h : ∀ k ∈ fs.nodes.keys, st.fabricDir ++ [str "manifests"] <+: k →
      k = st.fabricDir ++ [str "manifests"]) (g : Hash) : fs.get (st.manifestPath g) = none := by
  apply Option.eq_none_iff_forall_ne_some.mpr
  intro x hx
  have hkey := h _ (fs.mem_keys hx) ⟨_, List.append_assoc _ _ _⟩
  have hlength := congrArg List.length hkey
  simp [Store.manifestPath, Store.fanPath] at hlength

/-- **What a snapshot leaves is loaded when it fits.** -/
theorem load_created_iff {id : Hash} (hzstd : Lossless X) (hsound : Sound X st m.fs)
    (hfiles : ∀ h, m.fs.get (st.manifestPath h) ≠ some .dir)
    (hroot : ∀ rel, st.fabricDir <+: root ++ rel → excluded rel = true)
    (hbuild : buildManifest X st root message actor m = .ok mf m₁)
    (hcreate : createFromActor X st root message actor m = .ok id m')
    (hjson : X.manifestOfJson (mf.serialize X) = .ok mf)
    (hhash : ∀ b ∈ m'.fs.contents, X.blake3 b = X.blake3 (mf.serialize X) → b = mf.serialize X) :
    st.head m'.fs = .ok (some id) ∧ (load X st m'.fs id = .ok mf ↔ mf.Fits X) := by
  obtain ⟨_, _, _, _, hmf, hproper, hreal₁, hsame⟩ := buildManifest_ok hroot hsound.real hbuild
  have hversion : mf.version = MANIFEST_VERSION := by
    rw [hmf]
    rfl
  have hsound' : Sound X st m'.fs := (createFromActor_sound hzstd hsound).ok hcreate
  obtain ⟨mf', m₂, hbuild', hstore⟩ := bind_eq_ok.mp hcreate
  cases hbuild.symm.trans hbuild'
  have hstored := storeManifest_ok hreal₁ hstore
  refine ⟨hstored.head, ?_⟩
  rw [load_eq_ok hsound'.real, ← Manifest.decode_serialize_iff hversion hproper hjson]
  -- what lies there is a file, and its bytes are those of the manifest
  obtain ⟨d, hd⟩ : ∃ d, m'.fs.get (st.manifestPath id) = some (.file d) := by
    cases hget : m'.fs.get (st.manifestPath id) with
    | none => exact absurd hget hstored.present
    | some x =>
        cases x with
        | file d => exact ⟨d, rfl⟩
        | dir =>
            by_cases hnone : m₁.fs.get (st.manifestPath id) = none
            · obtain ⟨d, hd, _⟩ := hstored.fresh hnone
              rw [hget] at hd
              cases hd
            · rw [hstored.old hnone, hsame] at hget
              exact absurd hget (hfiles id)
        | symlink t =>
            exact absurd hget (hsound'.real.links _ t
              ((Store.fabricDir_prefix_fanPath _ _).trans (List.dropLast_prefix _)))
  have hnamed : X.blake3 d.bytes = id := (hsound'.addressed _ d hd).manifest id rfl
  have hbytes : d.bytes = mf.serialize X :=
    hhash _ (m'.fs.mem_contents hd) (hnamed.trans hstored.named)
  constructor
  · intro hload
    obtain ⟨d', hd', hdecode⟩ := hload
    cases hd.symm.trans hd'
    rw [← hbytes]
    exact hdecode
  · intro hdecode
    refine ⟨d, hd, ?_⟩
    rw [hbytes]
    exact hdecode

/-- **When what create commits can be loaded.**  A snapshot that succeeds on a
sound store moves HEAD to its id, and the manifest loads as it was built exactly
when the manifest of the tree is within the caps of a reader. -/
theorem created_loads_iff {id : Hash} (hzstd : Lossless X) (hsound : Sound X st m.fs)
    (hfiles : ∀ h, m.fs.get (st.manifestPath h) ≠ some .dir)
    (hroot : ∀ rel, st.fabricDir <+: root ++ rel → excluded rel = true)
    (hbuild : buildManifest X st root message actor m = .ok mf m₁)
    (hcreate : createFromActor X st root message actor m = .ok id m')
    (hjson : X.manifestOfJson (mf.serialize X) = .ok mf)
    (hhash : ∀ b ∈ m'.fs.contents, X.blake3 b = X.blake3 (mf.serialize X) → b = mf.serialize X) :
    ∃ tombs parent, tombstones X st m.fs = .ok tombs ∧ st.head m.fs = .ok parent ∧
      mf = treeManifest X root message actor tombs parent m.fs (unixSecs m.clock) ∧
      st.head m'.fs = .ok (some id) ∧
      (load X st m'.fs id = .ok mf ↔
        (treeManifest X root message actor tombs parent m.fs (unixSecs m.clock)).Fits X) := by
  obtain ⟨tombs, parent, htombs, hparent, hmf, _⟩ := buildManifest_ok hroot hsound.real hbuild
  obtain ⟨hhead, hiff⟩ :=
    load_created_iff hzstd hsound hfiles hroot hbuild hcreate hjson hhash
  refine ⟨tombs, parent, htombs, hparent, hmf, hhead, ?_⟩
  rw [← hmf]
  exact hiff

/-- A manifest that is new and longer than a reader takes does not load. -/
theorem load_ne_ok_of_long {id : Hash} (hreal : st.Real m.fs)
    (hroot : ∀ rel, st.fabricDir <+: root ++ rel → excluded rel = true)
    (hcreate : createFromActor X st root message actor m = .ok id m')
    (hnew : ∀ h, m.fs.get (st.manifestPath h) = none)
    (hlong : ∀ mf : Manifest, mf.message = message →
      MAX_MANIFEST_SIZE < (mf.serialize X).length) (mf : Manifest) :
    load X st m'.fs id ≠ .ok mf := by
  obtain ⟨built, m₁, hbuild, hstore⟩ := bind_eq_ok.mp hcreate
  obtain ⟨_, _, _, _, hbuilt, _, hreal₁, hsame⟩ := buildManifest_ok hroot hreal hbuild
  have hreal' : st.Real m'.fs := (storeManifest_touching built m₁ hreal₁).ok hstore |>.real
  obtain ⟨d, hd, hbytes⟩ := (storeManifest_ok hreal₁ hstore).fresh ((hsame id).trans (hnew id))
  intro hload
  obtain ⟨d', hd', hdecode⟩ := (load_eq_ok hreal').mp hload
  cases hd'.symm.trans hd
  have hcap := Manifest.length_of_decode hdecode
  have hmessage := hlong built (by rw [hbuilt]; rfl)
  rw [hbytes] at hcap
  omega

end Create

/-! ## Small snapshots -/

/-- A fabric without snapshots, in a worktree with one file. -/
def newFabric : Fs :=
  Fs.build (Store.fabricNodes ⟨[str "w"]⟩ [] ++ [([str "w", str "a"], Store.plainFile (str "A"))])

/-- The snapshot of it. -/
def newManifest : Manifest := smallManifest none none [smallEntry (str "a") (str "A")]

def newCrates : Crates := smallCrates [(str "m", newManifest)] [] []

/-- The snapshot of one small file loads. -/
theorem created_loads_small :
    newManifest.Fits newCrates ∧
      load newCrates ⟨[str "w"]⟩ (finalState (createFromActor newCrates ⟨[str "w"]⟩ [str "w"] []
        none (Machine.start newFabric))).fs (padHash (str "m")) = .ok newManifest := by
  have hbuild := eq_ok_of_yields (a := newManifest)
    (r := buildManifest newCrates ⟨[str "w"]⟩ [str "w"] [] none (Machine.start newFabric))
    (by decide +kernel)
  have hcreate := eq_ok_of_yields (a := padHash (str "m"))
    (r := createFromActor newCrates ⟨[str "w"]⟩ [str "w"] [] none (Machine.start newFabric))
    (by decide +kernel)
  have hsound : Sound newCrates ⟨[str "w"]⟩ (Machine.start newFabric).fs :=
    ⟨Store.Real.of_keys (by decide +kernel) (by decide +kernel),
      Addressed.of_keys _ _ (by decide +kernel)⟩
  obtain ⟨tombs, parent, _, _, hmf, _, hiff⟩ := created_loads_iff (fun _ _ => rfl) hsound
    (fun g hdir => by rw [no_manifest_of_keys (by decide +kernel) g] at hdir; cases hdir)
    (fun _ => excluded_of_fabric) hbuild hcreate (by decide +kernel) (by decide +kernel)
  have hfits : newManifest.Fits newCrates :=
    ⟨by decide +kernel, by decide +kernel, by decide +kernel⟩
  refine ⟨hfits, hiff.mpr ?_⟩
  rw [← hmf]
  exact hfits

/-- Crates whose JSON of a manifest quotes the message. -/
def quotingCrates : Crates :=
  { smallCrates [] [] [] with manifestToJson := fun mf => [34] ++ mf.message ++ [34] }

/-- A message that is longer than any manifest may be. -/
def longMessage : Bytes := List.replicate (MAX_MANIFEST_SIZE + 1) 97

/-- A snapshot with a long message is made HEAD and never loads. -/
theorem created_unloadable : ∃ id m',
    createFromActor quotingCrates ⟨[str "w"]⟩ [str "w"] longMessage none
      (Machine.start newFabric) = .ok id m' ∧
    ∀ mf, load quotingCrates ⟨[str "w"]⟩ m'.fs id ≠ .ok mf := by
  obtain ⟨id, hcreate⟩ := exists_of_succeeded (r := createFromActor quotingCrates ⟨[str "w"]⟩
    [str "w"] longMessage none (Machine.start newFabric)) (by decide +kernel)
  refine ⟨id, _, hcreate, ?_⟩
  have hreal : Store.Real ⟨[str "w"]⟩ (Machine.start newFabric).fs :=
    Store.Real.of_keys (by decide +kernel) (by decide +kernel)
  apply load_ne_ok_of_long hreal (fun _ => excluded_of_fabric) hcreate
  · exact no_manifest_of_keys (by decide +kernel)
  · intro mf hmessage
    simp only [Manifest.serialize, quotingCrates, hmessage, longMessage, List.length_append,
      List.length_replicate]
    omega

end Snapshot

end Respawn
