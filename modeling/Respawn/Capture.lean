import Respawn.Snapshot
import Respawn.Writes

/-!
# What a snapshot does to the disk, and what it records

On a real fabric a snapshot changes nothing outside the fabric, and inside it
gains objects (`StoreStep`).  `buildManifest_after` says which files a manifest
lists: exactly those that `captured` yields of the tree as it was.
-/

namespace Respawn

open ByteStr FileTree StateLogic

variable (X : Crates) (st : Store)

namespace Store

/-! ## Object paths -/

/-- A name of hexadecimal digits is valid. -/
theorem validName_hex {s : Bytes} {h : Hash} (hs : ∀ b ∈ s, b ∈ hashHex h) (hne : s ≠ []) :
    ValidName s := by
  have hdigit : ∀ b ∈ s, (48 ≤ b ∧ b ≤ 57) ∨ (97 ≤ b ∧ b ≤ 102) := fun b hb =>
    hexEncode_digit (hs b hb)
  have hnot : ∀ b : UInt8, b < 48 → b ∉ s := by
    intro b hlt hb
    rcases hdigit b hb with ⟨h48, _⟩ | ⟨h97, _⟩
    · exact absurd (UInt8.lt_of_lt_of_le hlt h48) (UInt8.lt_irrefl _)
    · exact absurd (UInt8.lt_of_lt_of_le hlt (UInt8.le_trans (by decide) h97)) (UInt8.lt_irrefl _)
  refine ⟨hne, ?_, ?_, hnot slash (by decide), hnot 0 (by decide)⟩
  · intro heq
    exact hnot 46 (by decide) (by simp [heq])
  · intro heq
    exact hnot 46 (by decide) (by simp [heq])

variable {st}

/-- The path of a hash under a fan-out directory has proper names. -/
theorem fanPath_valid {kind : Name} (hdir : ∀ n ∈ st.fabricDir, ValidName n)
    (hkind : ValidName kind) (h : Hash) : ∀ n ∈ st.fanPath kind h, ValidName n := by
  intro n hn
  rcases List.mem_append.mp hn with hn | hn
  · exact hdir n hn
  · simp only [List.mem_cons, List.not_mem_nil, or_false] at hn
    have hlen := hashHex_length h
    rcases hn with rfl | rfl | rfl
    · exact hkind
    · apply validName_hex (h := h) (fun b hb => List.mem_of_mem_take hb)
      intro hnil
      have := congrArg List.length hnil
      simp [hlen] at this
    · apply validName_hex (h := h) (fun b hb => List.mem_of_mem_drop hb)
      intro hnil
      have := congrArg List.length hnil
      simp [hlen] at this

/-- It is a proper path of the fabric. -/
theorem fanPath_names {kind : Name} {fs : Fs} (hreal : st.Real fs) (hkind : ValidName kind)
    (h : Hash) : ∀ n ∈ st.fanPath kind h, ValidName n :=
  fanPath_valid (fun _ hn => fs.valid_of_get hreal.dir hn) hkind h

theorem fanPath_dropLast (kind : Name) (h : Hash) :
    (st.fanPath kind h).dropLast = st.fabricDir ++ [kind, (hashHex h).take 2] := by
  simp [fanPath]

theorem fabricDir_prefix_fanPath (kind : Name) (h : Hash) :
    st.fabricDir <+: (st.fanPath kind h).dropLast := by
  rw [fanPath_dropLast]
  exact List.prefix_append _ _

theorem fanPath_ne_nil (kind : Name) (h : Hash) : st.fanPath kind h ≠ [] := by
  simp [fanPath]

/-- Different hashes have different places. -/
theorem fanPath_injective {kind : Name} {g h : Hash} (heq : st.fanPath kind g = st.fanPath kind h) :
    g = h := by
  have hlist := List.append_cancel_left heq
  simp only [List.cons.injEq, and_true, true_and] at hlist
  apply hashHex_injective
  rw [← List.take_append_drop 2 (hashHex g), ← List.take_append_drop 2 (hashHex h), hlist.1,
    hlist.2]

/-- A temporary file is not kept under a hash. -/
theorem fanPath_ne_tmp {kind : Name} {h : Hash} {dir : Path} {pid n : Nat} {tag : Bytes} :
    st.fanPath kind h ≠ dir ++ [tmpName pid n tag] := by
  intro heq
  have hlast := congrArg List.getLast? heq
  have hname : (hashHex h).drop 2 = tmpName pid n tag := by simpa [fanPath] using hlast
  have hmem : (46 : UInt8) ∈ hashHex h := by
    apply List.mem_of_mem_drop (i := 2)
    rw [hname]
    exact List.mem_of_mem_head? (by rfl)
  rcases hexEncode_digit hmem with ⟨h48, _⟩ | ⟨h97, _⟩
  · exact absurd h48 (by decide)
  · exact absurd h97 (by decide)

end Store

/-! ## Steps of the store -/

/-- A node among the objects; of the objects themselves only those with `S`. -/
def Store.AmongObjects (st : Store) (S : Hash → Prop) (q : Path) : Prop :=
  st.fabricDir ++ [str "objects"] <+: q ∧ ∀ h, q = st.objectPath h → S h

/-- From `m` to `m'` nothing changed but the objects with `S` and what lies
between them. -/
abbrev StoreStep (st : Store) (S : Hash → Prop) (m m' : Machine) : Prop :=
  st.Touched (st.AmongObjects S) m.fs m'.fs

namespace StoreStep

variable {st} {S S' : Hash → Prop} {m m' : Machine}

theorem weaken (h : StoreStep st S m m') (hS : ∀ g, S g → S' g) : StoreStep st S' m m' :=
  h.mono fun _ hq => ⟨hq.1, fun g hg => hS g (hq.2 g hg)⟩

/-- Outside the fabric everything stays. -/
theorem outside (h : StoreStep st S m m') {q : Path} (hq : ¬ st.fabricDir <+: q) :
    m'.fs.get q = m.fs.get q :=
  h.frame q fun hS => hq ((List.prefix_append _ _).trans hS.1)

/-- An object without `S` stays as it was. -/
theorem object (h : StoreStep st S m m') {g : Hash} (hg : ¬ S g) :
    m'.fs.get (st.objectPath g) = m.fs.get (st.objectPath g) :=
  h.frame _ fun hS => hg (hS.2 g rfl)

end StoreStep

variable {st}

/-- What lies on the way to an object, below the fabric directory. -/
theorem Store.amongObjects_of_prefix {S : Hash → Prop} {g : Hash} (hg : S g) {q : Path}
    (hdir : st.fabricDir <+: q) (hne : q ≠ st.fabricDir) (hq : q <+: st.objectPath g) :
    st.AmongObjects S q := by
  obtain ⟨tail, rfl⟩ := hdir
  have htail : tail <+: [str "objects", (hashHex g).take 2, (hashHex g).drop 2] :=
    (List.prefix_append_right_inj st.fabricDir).mp hq
  cases tail with
  | nil => exact absurd (List.append_nil _) hne
  | cons a tail =>
      obtain ⟨ha, _⟩ := List.cons_prefix_cons.mp htail
      refine ⟨?_, ?_⟩
      · rw [ha]
        exact (List.prefix_append_right_inj _).mpr ⟨tail, rfl⟩
      · intro h heq
        have hsame : st.objectPath h = st.objectPath g := by
          rw [heq] at hq
          apply hq.eq_of_length
          simp [Store.objectPath, Store.fanPath]
        rw [Store.fanPath_injective hsame]
        exact hg

/-- **Storing an object.** -/
theorem putObject_after {X : Crates} {data : Bytes} {m : Machine} (hreal : st.Real m.fs) :
    After (st.putObject X data m)
      (fun h m' => h = X.blake3 data ∧ StoreStep st (fun g => g = X.blake3 data) m m' ∧
        m'.fs.get (st.objectPath (X.blake3 data)) ≠ none)
      (fun _ m' => StoreStep st (fun g => g = X.blake3 data) m m') := by
  have hpath : st.fabricDir <+: (st.objectPath (X.blake3 data)).dropLast :=
    Store.fabricDir_prefix_fanPath _ _
  have hne : st.objectPath (X.blake3 data) ≠ [] := Store.fanPath_ne_nil _ _
  have hamong : ∀ q, st.fabricDir <+: q → q ≠ st.fabricDir →
      q <+: st.objectPath (X.blake3 data) → st.AmongObjects (fun g => g = X.blake3 data) q :=
    fun q h₁ h₂ h₃ => Store.amongObjects_of_prefix (S := fun g => g = X.blake3 data) rfl h₁ h₂ h₃
  unfold Store.putObject
  apply After.bind (P := fun _ m' => StoreStep st (fun g => g = X.blake3 data) m m' ∧
    m'.fs.get (st.objectPath (X.blake3 data)) ≠ none)
  · apply (Store.putBlob_after hreal hpath hne
      (Store.fanPath_names hreal (by decide) (X.blake3 data))).mono
    · intro _ m' h
      rcases h with ⟨hsome, rfl⟩ | ⟨_, hwrote⟩
      · exact ⟨Store.Touched.refl hreal, hsome⟩
      · refine ⟨Store.Touched.of_wrote hreal hpath hne hamong hwrote, ?_⟩
        obtain ⟨d, hd, _⟩ := hwrote.file
        rw [show m'.fs.get (st.objectPath (X.blake3 data)) = _ from hd]
        simp
    · intro _ m' h
      refine Store.Touched.of_missed hreal hpath hamong ?_ h.2
      intro n
      refine ⟨?_, fun g heq => absurd heq.symm Store.fanPath_ne_tmp⟩
      unfold Store.objectPath
      rw [Store.fanPath_dropLast, List.append_assoc]
      exact (List.prefix_append_right_inj _).mpr ⟨_, rfl⟩
  · intro _ m' h
    exact ⟨rfl, h⟩

namespace Snapshot

/-! ## Chunking a file -/

/-- The hashes of a file's chunks. -/
def chunkHashes (X : Crates) (data : Bytes) : List Hash := (chunksOf X data).map X.blake3

/-- **Chunking the file `d`.** -/
theorem chunkFile_after {X : Crates} {path : Path} {d : FileData} {m : Machine}
    (hreal : st.Real m.fs) (hfile : m.fs.get path = some (.file d)) :
    After (chunkFile X st path m)
      (fun r m' => r = (X.blake3 (chunksOf X d.bytes).flatten, chunkHashes X d.bytes,
          (chunksOf X d.bytes).flatten.length) ∧
        StoreStep st (· ∈ chunkHashes X d.bytes) m m')
      (fun _ m' => StoreStep st (· ∈ chunkHashes X d.bytes) m m') := by
  have hread : readNofollow path m.fs = .ok d.bytes := by
    unfold readNofollow
    simp only [Fs.symlinkMetadata_of_get hfile]
  unfold chunkFile
  rw [bind_apply, look_eq_ok.mpr ⟨hread, rfl⟩]
  simp only
  have hloop := After.collectAcc (l := chunksOf X d.bytes) (s := m) (d := []) (r := [])
    (f := fun piece => do
      let h ← st.putObject X piece
      pure (some h))
    (I := fun done acc s => acc = done.map X.blake3 ∧
      StoreStep st (· ∈ chunkHashes X d.bytes) m s)
    (E := fun _ s => StoreStep st (· ∈ chunkHashes X d.bytes) m s)
    ⟨rfl, Store.Touched.refl hreal⟩ ?_
  · apply After.bind hloop
    intro hashes m' h
    exact ⟨by rw [show hashes = chunkHashes X d.bytes by simpa [chunkHashes] using h.1], h.2⟩
  · intro piece hpiece done acc s h
    obtain ⟨hacc, hstep⟩ := h
    have hS : ∀ g, g = X.blake3 piece → g ∈ chunkHashes X d.bytes := by
      intro g hg
      exact List.mem_map.mpr ⟨piece, hpiece, hg.symm⟩
    apply After.bind ((putObject_after hstep.real).mono (fun _ _ h => h) fun _ s' h =>
      hstep.trans (h.weaken hS))
    intro g s' h
    exact ⟨by simp [hacc, h.1], hstep.trans (h.2.1.weaken hS)⟩

/-- **Chunking it until it is stable.**  A file outside the fabric does not
change while the store is written. -/
theorem chunkFileStable_after {X : Crates} {path : Path} {d : FileData} {m : Machine} {n : Nat}
    (hreal : st.Real m.fs) (hout : ¬ st.fabricDir <+: path)
    (hfile : m.fs.get path = some (.file d)) :
    After (chunkFileStable X st path n m)
      (fun r m' => r = ((X.blake3 (chunksOf X d.bytes).flatten, chunkHashes X d.bytes,
          (chunksOf X d.bytes).flatten.length), false) ∧
        StoreStep st (· ∈ chunkHashes X d.bytes) m m')
      (fun _ m' => StoreStep st (· ∈ chunkHashes X d.bytes) m m') := by
  have hstamp : ∀ fs : Fs, fs.get path = some (.file d) → fileStamp path fs =
      .ok (d.bytes.length, unixSecs d.mtime * 1000000000 + subsecNanos d.mtime) := by
    intro fs hfs
    unfold fileStamp
    simp only [Fs.symlinkMetadata_of_get hfs]
  have hchunk := chunkFile_after (X := X) hreal hfile
  cases n with
  | zero =>
      unfold chunkFileStable
      rw [bind_apply, look_eq_ok.mpr ⟨hstamp _ hfile, rfl⟩]
      apply After.bind hchunk
      intro r m' h
      have hfile' : m'.fs.get path = some (.file d) := (h.2.outside hout).trans hfile
      rw [bind_apply, look_eq_ok.mpr ⟨hstamp _ hfile', rfl⟩]
      exact ⟨by simp [h.1], h.2⟩
  | succ n =>
      unfold chunkFileStable
      rw [bind_apply, look_eq_ok.mpr ⟨hstamp _ hfile, rfl⟩]
      apply After.bind hchunk
      intro r m' h
      have hfile' : m'.fs.get path = some (.file d) := (h.2.outside hout).trans hfile
      rw [bind_apply, look_eq_ok.mpr ⟨hstamp _ hfile', rfl⟩]
      simp only [if_true]
      exact ⟨by rw [h.1], h.2⟩

/-! ## The files a manifest lists -/

/-- Does the walk chunk the file at `rel`? -/
def scanned (patterns : List Bytes) (tombs : List Tombstone) (rel : Path) : Bool :=
  !excluded rel && !ignored patterns (relStr rel) && !(tombs.any fun t => t.path = relStr rel)

/-- The entry of the file `d` at `rel`. -/
def fileEntry (X : Crates) (rel : Path) (d : FileData) : FileEntry :=
  { path := relStr rel
    mode := d.mode % 512
    size := (chunksOf X d.bytes).flatten.length
    mtimeSecs := unixSecs d.mtime
    mtimeNanos := subsecNanos d.mtime
    content := X.blake3 (chunksOf X d.bytes).flatten
    chunks := chunkHashes X d.bytes }

/-- The entry the tree `fs` contributes at `rel`. -/
def captured (X : Crates) (root : Path) (patterns : List Bytes) (tombs : List Tombstone)
    (fs : Fs) (rel : Path) : Option FileEntry :=
  match fs.get (root ++ rel) with
  | some (.file d) =>
      if scanned patterns tombs rel &&
          !(tombs.any fun t => t.content = hashHex (fileEntry X rel d).content) then
        some (fileEntry X rel d)
      else none
  | _ => none

/-- The chunks of the files the walk looks into. -/
def ScannedChunk (X : Crates) (root : Path) (patterns : List Bytes) (tombs : List Tombstone)
    (fs : Fs) (h : Hash) : Prop :=
  ∃ rel d, fs.get (root ++ rel) = some (.file d) ∧ scanned patterns tombs rel = true ∧
    h ∈ chunkHashes X d.bytes

/-- An entry is listed for a file that is scanned and whose content was not
purged. -/
theorem captured_eq_some {X : Crates} {root : Path} {patterns : List Bytes}
    {tombs : List Tombstone} {fs : Fs} {rel : Path} {fe : FileEntry} :
    captured X root patterns tombs fs rel = some fe ↔
      ∃ d, fs.get (root ++ rel) = some (.file d) ∧ scanned patterns tombs rel = true ∧
        (∀ t ∈ tombs, t.content ≠ hashHex (fileEntry X rel d).content) ∧
        fe = fileEntry X rel d := by
  unfold captured
  cases hx : fs.get (root ++ rel) with
  | none => simp
  | some x => cases x with
    | dir => simp
    | symlink t => simp
    | file d =>
        simp only [Option.ite_none_right_eq_some, Bool.and_eq_true]
        constructor
        · intro h
          obtain ⟨⟨hscan, htomb⟩, heq⟩ := h
          exact ⟨d, rfl, hscan, by simpa using htomb, (Option.some.inj heq).symm⟩
        · intro h
          obtain ⟨d', hd', hscan, htomb, rfl⟩ := h
          cases hd'
          exact ⟨⟨hscan, by simpa using htomb⟩, rfl⟩

/-- Whatever lies in the fabric is excluded. -/
theorem excluded_of_fabric {rel : Path} (h : st.fabricDir <+: st.root ++ rel) :
    excluded rel = true := by
  have hpre : [FABRIC_DIR] <+: rel := (List.prefix_append_right_inj st.root).mp h
  obtain ⟨tail, rfl⟩ := hpre
  have hname : lossy FABRIC_DIR ∈ excludedNames := by decide
  simp [excluded, excludedBy, hname]

section Scan

variable {root : Path}

/-- A file that stays as it is gives its entry, and its chunks are stored. -/
theorem captureFile_after {X : Crates} {rel : Path} {d : FileData} {m : Machine}
    {tombs : List Tombstone} (hreal : st.Real m.fs) (hout : ¬ st.fabricDir <+: root ++ rel)
    (hfile : m.fs.get (root ++ rel) = some (.file d)) :
    After (captureFile X st root tombs rel d m)
      (fun c m' => (c.entry =
          (if tombs.any (fun t => t.content = hashHex (fileEntry X rel d).content) then none
            else some (fileEntry X rel d)) ∧ c.unstable = none) ∧
        StoreStep st (· ∈ chunkHashes X d.bytes) m m')
      (fun _ m' => StoreStep st (· ∈ chunkHashes X d.bytes) m m') := by
  unfold captureFile
  apply After.bind (chunkFileStable_after hreal hout hfile)
  intro r m' h
  obtain ⟨⟨content, chunks, size⟩, changing⟩ := r
  obtain ⟨hr, hstep⟩ := h
  cases hr
  simp only
  split
  case isTrue htomb =>
    refine ⟨⟨?_, rfl⟩, hstep⟩
    rw [if_pos (show (tombs.any fun t => t.content = hashHex (fileEntry X rel d).content) = true
      from htomb)]
  case isFalse htomb =>
    refine ⟨⟨?_, rfl⟩, hstep⟩
    rw [if_neg (show ¬ (tombs.any fun t =>
      t.content = hashHex (fileEntry X rel d).content) = true from htomb)]
    rfl

/-- A file that the scan looks at is listed unless its content was purged. -/
theorem captured_of_scanned {X : Crates} {patterns : List Bytes} {tombs : List Tombstone} {fs : Fs}
    {rel : Path} {d : FileData} (hx : fs.get (root ++ rel) = some (.file d))
    (hscan : scanned patterns tombs rel = true) :
    captured X root patterns tombs fs rel =
      if tombs.any (fun t => t.content = hashHex (fileEntry X rel d).content) then none
        else some (fileEntry X rel d) := by
  unfold captured
  rw [hx]
  simp only [hscan, Bool.true_and]
  cases hany : tombs.any fun t => t.content = hashHex (fileEntry X rel d).content <;> rfl

/-- The scan lists no file of the fabric. -/
theorem captured_of_fabric {X : Crates} {patterns : List Bytes} {tombs : List Tombstone} {fs : Fs}
    {rel : Path} (hex : excluded rel = true) : captured X root patterns tombs fs rel = none := by
  apply Option.eq_none_iff_forall_ne_some.mpr
  intro fe hfe
  obtain ⟨d, _, hscan, _⟩ := captured_eq_some.mp hfe
  simp [scanned, hex] at hscan

/-- **One step of the walk.** -/
theorem captureEntry_after {X : Crates} {patterns : List Bytes} {tombs : List Tombstone}
    {m₀ m : Machine} {S : Hash → Prop}
    (hroot : ∀ rel, st.fabricDir <+: root ++ rel → excluded rel = true)
    (hstep : StoreStep st S m₀ m)
    (hS : ∀ h, ScannedChunk X root patterns tombs m₀.fs h → S h) (rel : Path) :
    After (captureEntry X st root patterns tombs rel m)
      (fun out m' => StoreStep st S m₀ m' ∧
        (out.bind Capture.entry = captured X root patterns tombs m₀.fs rel ∧
          out.bind Capture.unstable = none) ∧
        (captured X root patterns tombs m₀.fs rel ≠ none →
          ∃ r, sanitizeRel (relStr rel) = .ok r))
      (fun _ m' => StoreStep st S m₀ m') := by
  have hskip : captured X root patterns tombs m₀.fs rel = none →
      StoreStep st S m₀ m ∧
        ((none : Option Capture).bind Capture.entry = captured X root patterns tombs m₀.fs rel ∧
          (none : Option Capture).bind Capture.unstable = none) ∧
        (captured X root patterns tombs m₀.fs rel ≠ none →
          ∃ r, sanitizeRel (relStr rel) = .ok r) :=
    fun hnone => ⟨hstep, ⟨hnone.symm, rfl⟩, fun h => absurd hnone h⟩
  unfold captureEntry
  rw [bind_apply, look_get]
  simp only
  by_cases hfabric : st.fabricDir <+: root ++ rel
  · -- in the fabric: every file there is excluded
    have hex := hroot rel hfabric
    have hnone : captured X root patterns tombs m₀.fs rel = none := captured_of_fabric hex
    cases hx : m.fs.get (root ++ rel) with
    | none => exact hskip hnone
    | some x => cases x with
      | dir => exact hskip hnone
      | symlink t => exact hskip hnone
      | file d =>
          simp only
          rw [if_pos hex]
          exact hskip hnone
  · have hget := hstep.outside hfabric
    rw [hget]
    cases hx : m₀.fs.get (root ++ rel) with
    | none => exact hskip (by simp [captured, hx])
    | some x => cases x with
      | dir => exact hskip (by simp [captured, hx])
      | symlink t => exact hskip (by simp [captured, hx])
      | file d =>
          simp only
          by_cases hex : excluded rel = true
          · rw [if_pos hex]
            exact hskip (by simp [captured, hx, scanned, hex])
          · rw [if_neg hex]
            by_cases hig : ignored patterns (relStr rel) = true
            · rw [if_pos hig]
              exact hskip (by simp [captured, hx, scanned, hig])
            · rw [if_neg hig]
              by_cases htomb : (tombs.any fun t => t.path = relStr rel) = true
              · rw [if_pos htomb]
                exact hskip (by simp only [captured, hx, scanned, htomb]; simp)
              · rw [if_neg htomb]
                have hscan : scanned patterns tombs rel = true := by
                  simp only [scanned, Bool.not_eq_true] at hex hig htomb ⊢
                  rw [hex, hig, htomb]
                  rfl
                have hchunks : ∀ h, h ∈ chunkHashes X d.bytes → S h := fun h hh =>
                  hS h ⟨rel, d, hx, hscan, hh⟩
                apply After.bind (P := fun _ m' => m' = m ∧ ∃ r, sanitizeRel (relStr rel) = .ok r)
                · apply after_look
                  · intro r hr
                    exact ⟨rfl, r, hr⟩
                  · intro _ _
                    exact hstep
                · intro _ m' hm'
                  obtain ⟨rfl, hsan⟩ := hm'
                  have hcap : After (captureFile X st root tombs rel d m') _ _ :=
                    captureFile_after hstep.real hfabric (hget.trans hx)
                  apply After.bind (hcap.mono (fun _ _ h => h) fun _ m' h =>
                    hstep.trans (h.weaken hchunks))
                  intro c m'' h
                  refine ⟨hstep.trans (h.2.weaken hchunks), ⟨?_, h.1.2⟩, fun _ => hsan⟩
                  rw [Option.bind_some, h.1.1, captured_of_scanned hx hscan]

/-- The entries that a tree contributes to its manifest. -/
def treeFiles (X : Crates) (root : Path) (tombs : List Tombstone) (fs : Fs) : List FileEntry :=
  (fs.walk root).filterMap (captured X root (ignorePatterns root fs) tombs fs)

/-- The manifest of a tree on a parent, made at the second `secs`. -/
def treeManifest (X : Crates) (root : Path) (message : Bytes) (actor : Option Bytes)
    (tombs : List Tombstone) (parent : Option Hash) (fs : Fs) (secs : Nat) : Manifest :=
  { version := MANIFEST_VERSION
    parent := parent
    timestampSecs := secs
    message := message
    files := treeFiles X root tombs fs
    unstable := []
    actor := actor }

/-- HEAD is what its file says. -/
theorem head_congr {fs fs' : Fs} (hreal : st.Real fs) (hreal' : st.Real fs')
    (hsame : fs'.get st.headPath = fs.get st.headPath) : st.head fs' = st.head fs := by
  have hnames : ∀ n ∈ st.headPath, ValidName n := by
    intro n hn
    rcases List.mem_append.mp hn with hn | hn
    · exact fs.valid_of_get hreal.dir hn
    · rw [List.mem_singleton.mp hn]
      decide
  have hdrop : st.headPath.dropLast = st.fabricDir := List.dropLast_concat
  have hread := Fs.read_congr hnames (by simp [Store.headPath]) (by rw [hdrop]; exact hreal.dir)
    (by rw [hdrop]; exact hreal'.dir) (fun t => hreal.links _ t (List.prefix_append _ _)) hsame
  unfold Store.head Fs.readToString
  rw [hread]

/-- Writing objects leaves HEAD as it is. -/
theorem head_of_storeStep {S : Hash → Prop} {m m' : Machine} (hreal : st.Real m.fs)
    (h : StoreStep st S m m') : st.head m'.fs = st.head m.fs := by
  apply head_congr hreal h.real
  apply h.frame
  intro hS
  obtain ⟨⟨rest, heq⟩, _⟩ := hS
  rw [List.append_assoc] at heq
  have hname := (List.cons.inj (List.append_cancel_left heq)).1
  exact absurd hname (by decide)

/-- What one step of the walk adds to the entries, and to the unstable files. -/
theorem filterMap_of_step {X : Crates} {patterns : List Bytes} {tombs : List Tombstone} {fs : Fs}
    {rel : Path} {out : Option Capture}
    (hout : out.bind Capture.entry = captured X root patterns tombs fs rel)
    (hquiet : out.bind Capture.unstable = none) :
    out.toList.filterMap Capture.entry = [rel].filterMap (captured X root patterns tombs fs) ∧
      out.toList.filterMap Capture.unstable = [] := by
  cases out with
  | none =>
      simp only [Option.bind_none] at hout
      simp [← hout]
  | some c =>
      simp only [Option.bind_some] at hout hquiet
      refine ⟨?_, by simp [hquiet]⟩
      cases hc : c.entry <;> simp [← hout, hc]

/-- **What a manifest says.**  It is the one of the tree, whose paths are all
proper; the tree outside the fabric is left as it was. -/
theorem buildManifest_from {X : Crates} {message : Bytes} {actor : Option Bytes} {m₀ : Machine}
    (hroot : ∀ rel, st.fabricDir <+: root ++ rel → excluded rel = true) (hreal : st.Real m₀.fs) :
    After (buildManifest X st root message actor m₀)
      (fun mf m' => ∃ tombs parent, tombstones X st m₀.fs = .ok tombs ∧
        st.head m₀.fs = .ok parent ∧
        mf = treeManifest X root message actor tombs parent m₀.fs (unixSecs m'.clock) ∧
        (∀ fe ∈ mf.files, ∃ r, sanitizeRel fe.path = .ok r) ∧
        StoreStep st (ScannedChunk X root (ignorePatterns root m₀.fs) tombs m₀.fs) m₀ m')
      (fun _ m' => m' = m₀ ∨ ∃ tombs, tombstones X st m₀.fs = .ok tombs ∧
        StoreStep st (ScannedChunk X root (ignorePatterns root m₀.fs) tombs m₀.fs) m₀ m') := by
  unfold buildManifest
  rw [bind_apply, look_get]
  simp only
  apply After.bind (P := fun tombs m => m = m₀ ∧ tombstones X st m₀.fs = .ok tombs)
  · apply after_look
    · intro tombs h
      exact ⟨rfl, h⟩
    · intro _ _
      exact Or.inl rfl
  intro tombs m hm
  obtain ⟨rfl, htombs⟩ := hm
  rw [bind_apply, look_get]
  simp only
  -- the entries so far are those of the part of the walk that is done
  have hloop := After.collectAcc (l := m.fs.walk root) (s := m) (d := []) (r := [])
    (f := captureEntry X st root (ignorePatterns root m.fs) tombs)
    (I := fun done acc s =>
      StoreStep st (ScannedChunk X root (ignorePatterns root m.fs) tombs m.fs) m s ∧
      (acc.filterMap Capture.entry =
          done.filterMap (captured X root (ignorePatterns root m.fs) tombs m.fs) ∧
        acc.filterMap Capture.unstable = []) ∧
      ∀ fe ∈ acc.filterMap Capture.entry, ∃ r, sanitizeRel fe.path = .ok r)
    (E := fun _ s =>
      StoreStep st (ScannedChunk X root (ignorePatterns root m.fs) tombs m.fs) m s)
    ⟨Store.Touched.refl hreal, ⟨rfl, rfl⟩, by simp⟩ ?_
  · apply After.bind (hloop.mono (fun _ _ h => h) fun _ _ h => Or.inr ⟨tombs, htombs, h⟩)
    intro captures m' h
    obtain ⟨hstep, ⟨hfiles, hstable⟩, hsan⟩ := h
    rw [List.nil_append] at hfiles hstable hsan
    apply After.bind (P := fun parent m'' => m'' = m' ∧ st.head m.fs = .ok parent)
    · apply after_look
      · intro parent hparent
        exact ⟨rfl, head_of_storeStep hreal hstep ▸ hparent⟩
      · intro _ _
        exact Or.inr ⟨tombs, htombs, hstep⟩
    · intro parent m'' hm''
      obtain ⟨rfl, hparent⟩ := hm''
      refine ⟨tombs, parent, htombs, hparent, ?_, hsan, hstep⟩
      simp only [treeManifest, treeFiles, hfiles, hstable]
      rfl
  · intro rel _ done acc s h
    obtain ⟨hstep, ⟨hacc, hstable⟩, hsan⟩ := h
    apply (captureEntry_after hroot hstep (fun _ h => h) rel).mono
    · intro out s' h
      obtain ⟨hstep', ⟨hout, hquiet⟩, hok⟩ := h
      obtain ⟨hlast, hlast'⟩ := filterMap_of_step hout hquiet
      refine ⟨hstep', ⟨by rw [List.filterMap_append, List.filterMap_append, hacc, hlast],
        by rw [List.filterMap_append, hstable, hlast', List.append_nil]⟩, ?_⟩
      intro fe hfe
      rw [List.filterMap_append, List.mem_append] at hfe
      rcases hfe with hfe | hfe
      · exact hsan fe hfe
      · rw [hlast] at hfe
        have hcap : captured X root (ignorePatterns root m.fs) tombs m.fs rel = some fe := by
          simpa using hfe
        obtain ⟨d, _, _, _, rfl⟩ := captured_eq_some.mp hcap
        exact hok (by simp [hcap])
    · intro _ s' h
      exact h

end Scan

/-- **What a manifest of the worktree lists.**  The entries that the tree
contributes, in the order of the walk. -/
theorem buildManifest_after {X : Crates} {message : Bytes} {actor : Option Bytes} {m₀ : Machine}
    (hreal : st.Real m₀.fs) :
    After (buildManifest X st st.root message actor m₀)
      (fun mf m' => ∃ tombs, tombstones X st m₀.fs = .ok tombs ∧
        mf.files = (m₀.fs.walk st.root).filterMap
          (captured X st.root (ignorePatterns st.root m₀.fs) tombs m₀.fs) ∧
        (∀ fe ∈ mf.files, ∃ r, sanitizeRel fe.path = .ok r) ∧
        StoreStep st (ScannedChunk X st.root (ignorePatterns st.root m₀.fs) tombs m₀.fs) m₀ m')
      (fun _ m' => m' = m₀ ∨ ∃ tombs, tombstones X st m₀.fs = .ok tombs ∧
        StoreStep st (ScannedChunk X st.root (ignorePatterns st.root m₀.fs) tombs m₀.fs) m₀ m') := by
  apply (buildManifest_from (fun _ => excluded_of_fabric) hreal).mono
  · intro mf m' h
    obtain ⟨tombs, parent, htombs, _, hmf, hsan, hstep⟩ := h
    refine ⟨tombs, htombs, ?_, hsan, hstep⟩
    rw [hmf]
    rfl
  · intro _ _ h
    exact h

end Snapshot

end Respawn
