import Mathlib.Logic.Relation
import Respawn.Purge
import Respawn.Sync

/-!
# Content addressing

Every object file decompresses to bytes whose hash is its name, and the bytes
of every manifest file hash to its name (`Addressed`).  What a step adds to a
file system are the files it gains (`Fs.Gains`), so an operation keeps the
property when the files it places are `Proper`, whatever a peer sends.
-/

namespace FileTree

/-- Every file of `fs'` is one of `fs`, or its path and content satisfy `P`. -/
def Fs.Gains (P : Path → ByteStr.Bytes → Prop) (fs fs' : Fs) : Prop :=
  ∀ q d, fs'.get q = some (.file d) → fs.get q = some (.file d) ∨ P q d.bytes

end FileTree

namespace Respawn

open ByteStr FileTree StateLogic

variable (X : Crates) (st : Store)

/-! ## Files gained -/

section Gains

variable {st}

/-- A write that succeeds adds the file it is for. -/
theorem gains_of_wrote {path : Path} {data : Bytes} {m m' : Machine} (h : Wrote path data m m') :
    Fs.Gains (fun q b => q = path ∧ b = data) m.fs m'.fs := by
  intro q d hd
  by_cases hq : q = path
  · obtain ⟨d', hd', hbytes⟩ := h.file
    rw [hq, hd'] at hd
    cases hd
    exact Or.inr ⟨hq, hbytes⟩
  · rcases h.frame q hq with heq | ⟨_, _, hdir⟩
    · exact Or.inl (heq ▸ hd)
    · rw [hdir] at hd
      cases hd

/-- A write that misses adds a temporary file at most. -/
theorem gains_of_missed {tag : Bytes} {path : Path} {m m' : Machine} (h : Missed tag path m m') :
    Fs.Gains (fun q _ => ∃ n, q = path.dropLast ++ [tmpName m.pid n tag]) m.fs m'.fs := by
  intro q d hd
  rcases h.frame q with (heq | ⟨_, _, hdir⟩) | ⟨htmp, _, _⟩
  · exact Or.inl (heq ▸ hd)
  · rw [hdir] at hd
    cases hd
  · exact Or.inr htmp

/-- What touches places adds contents at them only. -/
theorem gains_of_touched {S : Path → Prop} {fs fs' : Fs} (h : st.Touched S fs fs') :
    Fs.Gains (fun q _ => S q) fs fs' := by
  intro q d hd
  by_cases hq : S q
  · exact Or.inr hq
  · exact Or.inl (h.frame q hq ▸ hd)

end Gains

/-! ## Proper files -/

/-- The bytes decompress to `data`, however much of it is read. -/
def Decompresses (bytes data : Bytes) : Prop := ∀ n, X.zstdRead n bytes = .ok (data.take n)

/-- A file with this content may stand at `q`: under an object's name it
decompresses to bytes with that hash, under a manifest's name it has that hash. -/
structure Proper (q : Path) (bytes : Bytes) : Prop where
  object : ∀ h, q = st.objectPath h → ∃ data, Decompresses X bytes data ∧ X.blake3 data = h
  manifest : ∀ h, q = st.manifestPath h → X.blake3 bytes = h

/-- Every file of the store is what its name says. -/
def Addressed (fs : Fs) : Prop := ∀ q d, fs.get q = some (.file d) → Proper X st q d.bytes

/-- A real fabric whose files are what their names say. -/
structure Sound (fs : Fs) : Prop where
  real : st.Real fs
  addressed : Addressed X st fs

variable {X st}

/-- A tree that gains proper contents stays content addressed. -/
theorem Addressed.of_gains {P : Path → Bytes → Prop} {fs fs' : Fs} (h : Addressed X st fs)
    (hgains : Fs.Gains P fs fs') (hP : ∀ q b, P q b → Proper X st q b) :
    Addressed X st fs' := by
  intro q d hd
  rcases hgains q d hd with hold | hnew
  · exact h q d hold
  · exact hP q _ hnew

theorem objectPath_ne_manifestPath (g h : Hash) : st.objectPath g ≠ st.manifestPath h := by
  intro heq
  have hkind := (List.cons.inj (List.append_cancel_left heq)).1
  exact absurd hkind (by decide)

/-- No object or manifest is named like a temporary file. -/
theorem proper_tmp {dir : Path} {pid n : Nat} {tag bytes : Bytes} :
    Proper X st (dir ++ [tmpName pid n tag]) bytes :=
  ⟨fun _ heq => absurd heq.symm Store.fanPath_ne_tmp,
    fun _ heq => absurd heq.symm Store.fanPath_ne_tmp⟩

/-- Only paths of the two fan-out directories matter. -/
theorem proper_elsewhere {n : Name} {rest : Path} {bytes : Bytes} (ho : n ≠ str "objects")
    (hm : n ≠ str "manifests") : Proper X st (st.fabricDir ++ n :: rest) bytes := by
  constructor
  · intro h heq
    exact absurd (List.cons.inj (List.append_cancel_left heq)).1 ho
  · intro h heq
    exact absurd (List.cons.inj (List.append_cancel_left heq)).1 hm

/-- At a place of its own no content is improper. -/
theorem proper_of_aside {q : Path} {bytes : Bytes} (h : st.Aside q) : Proper X st q bytes := by
  obtain ⟨n, rest, rfl, hn⟩ := h
  apply proper_elsewhere
  · intro heq
    exact hn (heq ▸ by decide)
  · intro heq
    exact hn (heq ▸ by decide)

theorem Sound.of_touched {S : Path → Prop} {fs fs' : Fs} (h : Sound X st fs)
    (htouched : st.Touched S fs fs') (hS : ∀ q b, S q → Proper X st q b) : Sound X st fs' :=
  ⟨htouched.real, h.addressed.of_gains (gains_of_touched htouched) hS⟩

/-! ## Storing -/

/-- A blob that is proper at its path is stored, or was there, or is missed. -/
theorem putBlob_sound {path : Path} {stored : Bytes} {m : Machine} (h : Sound X st m.fs)
    (hpath : st.fabricDir <+: path.dropLast) (hne : path ≠ []) (hnames : ∀ n ∈ path, ValidName n)
    (hproper : Proper X st path stored) :
    After (Store.putBlob path stored m) (fun _ m' => Sound X st m'.fs)
      (fun _ m' => Sound X st m'.fs) := by
  apply (Store.putBlob_after h.real hpath hne hnames).mono
  · intro _ m' hout
    rcases hout with ⟨_, rfl⟩ | ⟨_, hwrote⟩
    · exact h
    · refine ⟨h.real.wrote hpath hne hwrote, ?_⟩
      apply h.addressed.of_gains (gains_of_wrote hwrote)
      intro q b hqb
      obtain ⟨rfl, rfl⟩ := hqb
      exact hproper
  · intro _ m' hout
    refine ⟨h.real.missed hpath hout.2, ?_⟩
    apply h.addressed.of_gains (gains_of_missed hout.2)
    intro q b hq
    obtain ⟨n, rfl⟩ := hq
    exact proper_tmp

/-- What zstd promises: compressed bytes decompress to what they were. -/
def Lossless (X : Crates) : Prop := ∀ data, Decompresses X (X.zstdEncode data) data

/-- Storing an object keeps the store sound. -/
theorem putObject_sound {data : Bytes} {m : Machine} (hzstd : Lossless X) (h : Sound X st m.fs) :
    After (st.putObject X data m) (fun _ m' => Sound X st m'.fs)
      (fun _ m' => Sound X st m'.fs) := by
  unfold Store.putObject
  refine (putBlob_sound h (Store.fabricDir_prefix_fanPath _ _) (Store.fanPath_ne_nil _ _)
    (Store.fanPath_names h.real (by decide) _) ?_).bind fun _ _ h' => h'
  refine ⟨fun g heq => ⟨data, hzstd data, Store.fanPath_injective heq⟩, ?_⟩
  intro g heq
  exact absurd heq (objectPath_ne_manifestPath _ _)

/-- So does storing a manifest. -/
theorem putManifest_sound {data : Bytes} {m : Machine} (h : Sound X st m.fs) :
    After (st.putManifest X data m) (fun _ m' => Sound X st m'.fs)
      (fun _ m' => Sound X st m'.fs) := by
  unfold Store.putManifest
  refine (putBlob_sound h (Store.fabricDir_prefix_fanPath _ _) (Store.fanPath_ne_nil _ _)
    (Store.fanPath_names h.real (by decide) _) ?_).bind fun _ _ h' => h'
  refine ⟨?_, fun g heq => Store.fanPath_injective heq⟩
  intro g heq
  exact absurd heq.symm (objectPath_ne_manifestPath _ _)

/-- HEAD is replaced in place. -/
theorem setHead_after {id : Option Hash} {m : Machine} (hreal : st.Real m.fs) :
    After (st.setHead id m)
      (fun _ m' => st.Touched (fun q => ∃ n, q = st.fabricDir ++ [n] ∧
        (n = str "HEAD" ∨ ∃ k, n = tmpName m.pid k (str "HEAD"))) m.fs m'.fs)
      (fun _ m' => st.Touched (fun q => ∃ n, q = st.fabricDir ++ [n] ∧
        (n = str "HEAD" ∨ ∃ k, n = tmpName m.pid k (str "HEAD"))) m.fs m'.fs) := by
  have hdrop : st.headPath.dropLast = st.fabricDir := List.dropLast_concat
  have htag : Store.fileTag st.headPath = str "HEAD" := by
    unfold Store.fileTag Store.headPath
    rw [List.getLast?_concat]
    decide
  unfold Store.setHead Store.atomicWrite
  rw [htag]
  have hnames : ∀ n ∈ st.headPath, ValidName n := Purge.record_names hreal (by decide)
  apply Store.Touched.of_replaceFile hreal (by rw [hdrop]) (by simp [Store.headPath]) hnames
    (fun n => validName_tmpName (by decide) (by decide))
  · intro q hq hne hpre
    obtain ⟨tail, rfl⟩ := hq
    have htail := (List.prefix_append_right_inj st.fabricDir).mp hpre
    cases tail with
    | nil => exact absurd (List.append_nil _) hne
    | cons a tail =>
        obtain ⟨ha, hrest⟩ := List.cons_prefix_cons.mp htail
        rw [List.prefix_nil.mp hrest, ha]
        exact ⟨_, rfl, Or.inl rfl⟩
  · intro n
    exact ⟨_, by rw [hdrop], Or.inr ⟨n, rfl⟩⟩

/-- So does moving HEAD. -/
theorem setHead_sound {id : Option Hash} {m : Machine} (h : Sound X st m.fs) :
    After (st.setHead id m) (fun _ m' => Sound X st m'.fs) (fun _ m' => Sound X st m'.fs) := by
  have hproper : ∀ q b, (∃ n, q = st.fabricDir ++ [n] ∧
      (n = str "HEAD" ∨ ∃ k, n = tmpName m.pid k (str "HEAD"))) → Proper X st q b := by
    intro q b hq
    obtain ⟨n, rfl, rfl | ⟨k, rfl⟩⟩ := hq
    · exact proper_elsewhere (by decide) (by decide)
    · exact proper_tmp
  apply (setHead_after h.real).mono
  · intro _ m' htouched
    exact h.of_touched htouched hproper
  · intro _ m' htouched
    exact h.of_touched htouched hproper

/-! ## The operations -/

namespace Snapshot

section Keeps

variable {I : Machine → Prop}

/-- Chunking a file keeps what storing objects keeps. -/
theorem chunkFile_keeps (hput : ∀ data, Keeps I (st.putObject X data)) (path : Path) :
    Keeps I (chunkFile X st path) := by
  unfold chunkFile
  apply Keeps.look.bind
  intro data
  apply Keeps.bind
  · apply Keeps.collect
    intro piece
    exact (hput piece).bind fun _ => Keeps.pure _
  · intro _
    exact Keeps.pure _

/-- So does chunking it until it is stable. -/
theorem chunkFileStable_keeps (hput : ∀ data, Keeps I (st.putObject X data)) (path : Path)
    (n : Nat) : Keeps I (chunkFileStable X st path n) := by
  induction n with
  | zero =>
      apply Keeps.look.bind
      intro _
      apply (chunkFile_keeps hput path).bind
      intro _
      apply Keeps.look.bind
      intro _
      exact Keeps.pure _
  | succ n ih =>
      apply Keeps.look.bind
      intro _
      apply (chunkFile_keeps hput path).bind
      intro _
      apply Keeps.look.bind
      intro _
      exact Keeps.ite (Keeps.pure _) ih

/-- So does one step of the walk. -/
theorem captureEntry_keeps {scanRoot : Path} {patterns : List Bytes} {tombs : List Tombstone}
    (hput : ∀ data, Keeps I (st.putObject X data)) (rel : Path) :
    Keeps I (captureEntry X st scanRoot patterns tombs rel) := by
  unfold captureEntry
  apply Keeps.look.bind
  intro node
  split
  case _ d =>
    apply Keeps.ite (Keeps.pure _)
    apply Keeps.ite (Keeps.pure _)
    apply Keeps.ite (Keeps.pure _)
    apply Keeps.look.bind
    intro _
    apply Keeps.bind
    · unfold captureFile
      apply (chunkFileStable_keeps hput _ _).bind
      intro r
      obtain ⟨⟨content, chunks, size⟩, changing⟩ := r
      exact Keeps.ite (Keeps.pure _) (Keeps.pure _)
    · intro _
      exact Keeps.pure _
  · exact Keeps.pure _

/-- Making a manifest writes objects and nothing else. -/
theorem buildManifest_keeps {scanRoot : Path} {message : Bytes} {actor : Option Bytes}
    (hput : ∀ data, Keeps I (st.putObject X data)) :
    Keeps I (buildManifest X st scanRoot message actor) := by
  unfold buildManifest
  apply Keeps.look.bind
  intro patterns
  apply Keeps.look.bind
  intro tombs
  apply Keeps.look.bind
  intro entries
  apply (Keeps.collect entries (captureEntry_keeps hput)).bind
  intro captures
  apply Keeps.look.bind
  intro parent m hm
  exact hm

/-- A snapshot keeps what its objects, its manifest and HEAD keep. -/
theorem createFromActor_keeps {scanRoot : Path} (hobject : ∀ data, Keeps I (st.putObject X data))
    (hmanifest : ∀ data, Keeps I (st.putManifest X data)) (hhead : ∀ id, Keeps I (st.setHead id))
    (message : Bytes) (actor : Option Bytes) :
    Keeps I (createFromActor X st scanRoot message actor) := by
  unfold createFromActor storeManifest
  apply (buildManifest_keeps hobject).bind
  intro manifest
  apply (hmanifest _).bind
  intro id
  apply (hhead (some id)).bind
  intro _
  exact Keeps.pure _

/-- It seals and unseals nothing. -/
theorem createFromActor_sealed {scanRoot : Path} {S : List Path} (message : Bytes)
    (actor : Option Bytes) :
    Keeps (fun m : Machine => m.fs.sealed = S)
      (createFromActor X st scanRoot message actor) :=
  createFromActor_keeps Store.putObject_sealed Store.putManifest_sealed
    (fun _ => Store.replaceFile_sealed _ _ _) message actor

end Keeps

/-- Building a manifest keeps the store sound. -/
theorem buildManifest_sound {scanRoot : Path} {message : Bytes} {actor : Option Bytes}
    {m : Machine} (hzstd : Lossless X) (h : Sound X st m.fs) :
    After (buildManifest X st scanRoot message actor m) (fun _ m' => Sound X st m'.fs)
      (fun _ m' => Sound X st m'.fs) :=
  buildManifest_keeps (I := fun m' : Machine => Sound X st m'.fs)
    (fun _ _ hs => putObject_sound hzstd hs) m h

/-- A snapshot keeps the store sound. -/
theorem createFromActor_sound {scanRoot : Path} {message : Bytes} {actor : Option Bytes}
    {m : Machine} (hzstd : Lossless X) (h : Sound X st m.fs) :
    After (createFromActor X st scanRoot message actor m) (fun _ m' => Sound X st m'.fs)
      (fun _ m' => Sound X st m'.fs) := by
  unfold createFromActor
  apply After.bind (buildManifest_sound hzstd h)
  intro manifest m₁ h₁
  unfold storeManifest
  apply After.bind (putManifest_sound h₁)
  intro id m₂ h₂
  exact (setHead_sound h₂).bind fun _ _ h => h

end Snapshot

namespace Purge

/-- A sweep keeps the store sound. -/
theorem Swept.sound {chunks : List Hash} {fs fs' : Fs} (h : Sound X st fs)
    (hswept : Swept st chunks fs fs') : Sound X st fs' := by
  refine ⟨hswept.touched.real, ?_⟩
  intro q d hd
  by_cases hq : ∃ g ∈ chunks, q = st.objectPath g
  · obtain ⟨g, hg, rfl⟩ := hq
    rw [hswept.gone g hg] at hd
    cases hd
  · rw [hswept.touched.frame q hq] at hd
    exact h.addressed q d hd

/-- After the tombstone, files only went away or are aside. -/
theorem Interred.addressed {live : Path} {text line : Bytes} {fs mid fs' : Fs}
    (h : Addressed X st fs) (hinterred : Interred st live text line fs mid fs') :
    Addressed X st fs' := by
  intro q d hd
  by_cases hq : st.Aside q
  · exact proper_of_aside hq
  · rcases hinterred.after q hq with heq | ⟨_, hnone⟩
    · by_cases htomb : q = tombstonePath st
      · rw [htomb]
        exact proper_elsewhere (by decide) (by decide)
      · rw [heq, hinterred.before q htomb] at hd
        exact h q d hd
    · rw [hnone] at hd
      cases hd

/-- A purge keeps the store sound, whatever its outcome. -/
theorem run_sound {order : List Hash → List Hash} {root : Path} {rel : Bytes} {m : Machine}
    (h : Sound X st m.fs) :
    After (run X st order root rel m) (fun _ m' => Sound X st m'.fs)
      (fun _ m' => Sound X st m'.fs) := by
  unfold run
  apply After.bind (P := fun p m' => m' = m ∧ plan X st root rel m.fs = .ok p)
  · exact after_look (fun _ hp => ⟨rfl, hp⟩) (fun _ _ => h)
  intro p m₁ hp
  obtain ⟨rfl, hplan⟩ := hp
  obtain ⟨text, htext⟩ := hasText_of_plan h.real hplan
  apply After.bind (P := fun _ m' => Swept st _ m₁.fs m'.fs)
  · apply (sweep_after h.real).mono
    · intro _ m' hswept
      exact hswept.1
    · intro _ m' hstop
      obtain ⟨_, _, _, _, hswept, _⟩ := hstop
      exact hswept.sound h
  intro counts m₂ hswept
  have haddressed := (hswept.sound h).addressed
  apply (finish_after hswept.touched.real (hswept.hasText htext)).mono
  · intro _ m' hend
    obtain ⟨mid, fs₃, hinterred, hlog⟩ := hend
    have hsound : Sound X st fs₃ := ⟨hinterred.real, hinterred.addressed haddressed⟩
    apply hsound.of_touched hlog
    intro q b hq
    rw [hq]
    exact proper_elsewhere (by decide) (by decide)
  · intro _ m' hend
    obtain ⟨mid, hinterred⟩ := hend
    exact ⟨hinterred.real, hinterred.addressed haddressed⟩

end Purge

namespace Sync

/-- What every write of a pull keeps, the pull keeps. -/
structure Kept (X : Crates) (st : Store) (I : Machine → Prop) : Prop where
  manifest : ∀ m data, I m → After (st.putManifest X data m) (fun _ => I) (fun _ => I)
  object : ∀ m data, I m → After (st.putObject X data m) (fun _ => I) (fun _ => I)
  remotes : ∀ m, I m → After (io (createDirAll (remotesDir st)) m) (fun _ => I) (fun _ => I)
  remote : ∀ m addr h, 58 ∈ addr → I m →
    After (io (writeFile (remotesDir st ++ [sanitize addr]) (hashHex h)) m)
    (fun _ => I) (fun _ => I)

section Kept

variable {I : Machine → Prop} {peer : Peer} {m : Machine}

/-- Fetching a manifest keeps what storing it keeps. -/
theorem fetchManifest_keeps {sent : List Bytes} {cur : Hash} (hI : Kept X st I) (h : I m) :
    After (fetchManifest X st peer sent cur m) (fun _ => I) (fun _ => I) := by
  unfold fetchManifest
  apply after_look_bind _ fun _ _ => h
  intro resp _
  apply after_look_bind _ fun _ _ => h
  intro data _
  split
  · exact h
  · apply After.bind (P := fun _ => I)
    · unfold Store.putManifestAs
      split
      · exact h
      · exact (hI.manifest m data h).bind fun _ _ h => h
    · intro _ m' h'
      exact after_look (fun _ _ => h') (fun _ _ => h')

/-- So does walking a chain of manifests. -/
theorem walk_keeps {fuel : Nat} {visited : List Hash} {w : Walked} {cur : Hash}
    (hI : Kept X st I) (h : I m) :
    After (walk X st peer fuel visited w cur m) (fun _ => I) (fun _ => I) := by
  induction fuel generalizing visited w cur m with
  | zero =>
      unfold walk
      rw [bind_apply, look_get]
      simp only
      split
      · exact h
      · split <;> exact h
  | succ fuel ih =>
      unfold walk
      rw [bind_apply, look_get]
      simp only
      split
      · exact h
      · split
        · exact h
        · apply After.bind (fetchManifest_keeps hI h)
          intro mf m' h'
          split
          · exact h'
          · cases mf.parent with
            | none => exact h'
            | some p => exact ih h'

/-- Fetching an object keeps what storing it keeps. -/
theorem fetchObject_keeps {f : Fetched} {g : Hash} {offered : UInt8}
    (hobject : ∀ m data, I m → After (st.putObject X data m) (fun _ => I) (fun _ => I))
    (h : I m) : After (fetchObject X st peer f g offered m) (fun _ => I) (fun _ => I) := by
  unfold fetchObject
  rw [bind_apply, look_get]
  simp only
  split
  · apply after_look_bind _ fun _ _ => h
    intro resp _
    apply after_look_bind _ fun _ _ => h
    intro data _
    split
    · exact h
    · apply After.bind (P := fun _ => I)
      · unfold Store.putObjectAs
        split
        · exact h
        · exact (hobject m data h).bind fun _ _ h => h
      · intro _ _ h'
        exact h'
  · exact h

/-- So does fetching a batch. -/
theorem fetchObjects_keeps {l : List (Hash × UInt8)} {f : Fetched}
    (hobject : ∀ m data, I m → After (st.putObject X data m) (fun _ => I) (fun _ => I))
    (h : I m) : After (fetchObjects X st peer l f m) (fun _ => I) (fun _ => I) := by
  induction l generalizing f m with
  | nil => exact h
  | cons a rest ih =>
      apply After.bind (fetchObject_keeps hobject h)
      intro f' m' h'
      exact ih h'

/-- So does fetching all batches. -/
theorem fetchBatches_keeps {l : List (List Hash)} {f : Fetched}
    (hobject : ∀ m data, I m → After (st.putObject X data m) (fun _ => I) (fun _ => I))
    (h : I m) : After (fetchBatches X st peer l f m) (fun _ => I) (fun _ => I) := by
  induction l generalizing f m with
  | nil => exact h
  | cons batch rest ih =>
      unfold fetchBatches
      apply after_look_bind _ fun _ _ => h
      intro offered _
      split
      · exact h
      · apply After.bind (fetchObjects_keeps hobject h)
        intro f' m' h'
        exact ih h'

/-- **A pull keeps what its writes keep**, whatever the peer answers and
wherever it stops. -/
theorem pull_keeps {addr : Bytes} (hI : Kept X st I) (h : I m) :
    After (pull X st addr peer m) (fun _ => I) (fun _ => I) := by
  unfold pull
  by_cases haddr : 58 ∈ addr
  case neg =>
    rw [if_pos haddr]
    exact h
  rw [if_neg (not_not.mpr haddr)]
  apply after_look_bind _ fun _ _ => h
  intro resp _
  split
  · unfold pullHead
    apply After.bind (walk_keeps hI h)
    intro w m₁ h₁
    apply After.bind (fetchBatches_keeps hI.object h₁)
    intro f m₂ h₂
    apply After.bind (hI.remotes m₂ h₂)
    intro _ m₃ h₃
    apply After.bind (hI.remote m₃ addr _ haddr h₃)
    intro _ m₄ h₄
    exact h₄
  · split <;> exact h

end Kept

/-- A node among the objects, the manifests or the notes on remotes. -/
def Reaches (st : Store) (q : Path) : Prop :=
  ∃ n rest, q = st.fabricDir ++ n :: rest ∧
    n ∈ [str "objects", str "manifests", str "remotes"]

/-- What lies on the way to the blobs may be made on the way. -/
theorem reaches_of_prefix {n : Name} {rest q : Path}
    (hn : n ∈ [str "objects", str "manifests", str "remotes"]) (hdir : st.fabricDir <+: q)
    (hne : q ≠ st.fabricDir) (hq : q <+: st.fabricDir ++ n :: rest) : Reaches st q := by
  obtain ⟨tail, rfl⟩ := hdir
  have htail := (List.prefix_append_right_inj st.fabricDir).mp hq
  cases tail with
  | nil => exact absurd (List.append_nil _) hne
  | cons a tail => exact ⟨a, tail, rfl, (List.cons_prefix_cons.mp htail).1 ▸ hn⟩

/-- Storing a blob touches nothing but its fan-out directory. -/
theorem putBlob_touches {kind : Name} {h : Hash} {stored : Bytes} {m : Machine}
    (hreal : st.Real m.fs) (hkind : kind ∈ [str "objects", str "manifests", str "remotes"])
    (hname : ValidName kind) :
    After (Store.putBlob (st.fanPath kind h) stored m)
      (fun _ m' => st.Touched (Reaches st) m.fs m'.fs)
      (fun _ m' => st.Touched (Reaches st) m.fs m'.fs) := by
  have hpath : st.fabricDir <+: (st.fanPath kind h).dropLast := Store.fabricDir_prefix_fanPath _ _
  have hne : st.fanPath kind h ≠ [] := Store.fanPath_ne_nil _ _
  have hS : ∀ q, st.fabricDir <+: q → q ≠ st.fabricDir → q <+: st.fanPath kind h →
      Reaches st q := fun q h₁ h₂ h₃ => reaches_of_prefix hkind h₁ h₂ h₃
  apply (Store.putBlob_after hreal hpath hne (Store.fanPath_names hreal hname h)).mono
  · intro _ m' hout
    rcases hout with ⟨_, rfl⟩ | ⟨_, hwrote⟩
    · exact Store.Touched.refl hreal
    · exact Store.Touched.of_wrote hreal hpath hne hS hwrote
  · intro _ m' hout
    refine Store.Touched.of_missed hreal hpath hS ?_ hout.2
    intro n
    rw [Store.fanPath_dropLast, List.append_assoc]
    exact ⟨kind, _, rfl, hkind⟩

/-- A node among the notes on remotes. -/
def AmongRemotes (st : Store) (q : Path) : Prop := remotesDir st <+: q

/-- Making the directory of remotes touches what is among them. -/
theorem remotes_touches {m : Machine} (hreal : st.Real m.fs) :
    After (io (createDirAll (remotesDir st)) m)
      (fun _ m' => st.Touched (AmongRemotes st) m.fs m'.fs)
      (fun _ m' => st.Touched (AmongRemotes st) m.fs m'.fs) := by
  apply after_io
  apply Store.Touched.of_createDirAll (w := m.toWorld) hreal (List.prefix_append _ _)
    (Purge.record_names hreal (by decide))
  intro q hdir hne hq
  obtain ⟨tail, rfl⟩ := hdir
  have htail := (List.prefix_append_right_inj st.fabricDir).mp hq
  cases tail with
  | nil => exact absurd (List.append_nil _) hne
  | cons a tail =>
      rw [(List.cons_prefix_cons.mp htail).1]
      exact ⟨tail, by simp [remotesDir]⟩

/-- So does writing the record of a remote. -/
theorem remote_touches {addr : Bytes} {h : Hash} {m : Machine} (hreal : st.Real m.fs)
    (haddr : 58 ∈ addr) :
    After (io (writeFile (remotesDir st ++ [sanitize addr]) (hashHex h)) m)
      (fun _ m' => st.Touched (AmongRemotes st) m.fs m'.fs)
      (fun _ m' => st.Touched (AmongRemotes st) m.fs m'.fs) := by
  apply after_io
  refine Store.Touched.of_writeFile (w := m.toWorld) hreal
    ((List.prefix_append _ _).trans (List.prefix_append _ _)) ?_ (List.prefix_append _ _)
  intro n hn
  rcases List.mem_append.mp hn with hn | hn
  · exact Purge.record_names hreal (by decide) n hn
  · rw [List.mem_singleton.mp hn]
    exact validName_sanitize haddr

theorem AmongRemotes.eq_append {q : Path} (h : AmongRemotes st q) :
    ∃ rest, q = st.fabricDir ++ str "remotes" :: rest := by
  obtain ⟨rest, rfl⟩ := h
  exact ⟨rest, by simp [remotesDir]⟩

theorem AmongRemotes.reaches {q : Path} (h : AmongRemotes st q) : Reaches st q := by
  obtain ⟨rest, rfl⟩ := h.eq_append
  exact ⟨_, rest, rfl, by decide⟩

/-- A pull touches only objects, manifests and the notes on remotes. -/
theorem pull_touches {addr : Bytes} {peer : Peer} {m : Machine} (hreal : st.Real m.fs) :
    After (pull X st addr peer m) (fun _ m' => st.Touched (Reaches st) m.fs m'.fs)
      (fun _ m' => st.Touched (Reaches st) m.fs m'.fs) := by
  apply pull_keeps (I := fun m' => st.Touched (Reaches st) m.fs m'.fs)
  · refine ⟨?_, ?_, ?_, ?_⟩
    · intro m' data h
      unfold Store.putManifest
      refine ((putBlob_touches h.real (by decide) (by decide)).mono
        (fun _ _ h' => h.trans h') fun _ _ h' => h.trans h').bind fun _ _ h' => h'
    · intro m' data h
      unfold Store.putObject
      refine ((putBlob_touches h.real (by decide) (by decide)).mono
        (fun _ _ h' => h.trans h') fun _ _ h' => h.trans h').bind fun _ _ h' => h'
    · intro m' h
      exact (remotes_touches h.real).mono
        (fun _ _ h' => h.trans (h'.mono fun _ => AmongRemotes.reaches))
        fun _ _ h' => h.trans (h'.mono fun _ => AmongRemotes.reaches)
    · intro m' addr g haddr h
      exact (remote_touches h.real haddr).mono
        (fun _ _ h' => h.trans (h'.mono fun _ => AmongRemotes.reaches))
        fun _ _ h' => h.trans (h'.mono fun _ => AmongRemotes.reaches)
  · exact Store.Touched.refl hreal

theorem proper_remotes {q : Path} {b : Bytes} (hq : AmongRemotes st q) : Proper X st q b := by
  obtain ⟨rest, rfl⟩ := hq.eq_append
  exact proper_elsewhere (by decide) (by decide)

/-- **A pull keeps the store content addressed**, whatever the peer sends. -/
theorem pull_sound {addr : Bytes} {peer : Peer} {m : Machine} (hzstd : Lossless X)
    (h : Sound X st m.fs) :
    After (pull X st addr peer m) (fun _ m' => Sound X st m'.fs)
      (fun _ m' => Sound X st m'.fs) := by
  apply pull_keeps (I := fun m' => Sound X st m'.fs) _ h
  refine ⟨fun m data h => putManifest_sound h, fun m data h => putObject_sound hzstd h, ?_, ?_⟩
  · intro m h
    exact (remotes_touches h.real).mono
      (fun _ _ htouched => h.of_touched htouched fun _ _ hq => proper_remotes hq)
      fun _ _ htouched => h.of_touched htouched fun _ _ hq => proper_remotes hq
  · intro m addr g haddr h
    exact (remote_touches h.real haddr).mono
      (fun _ _ htouched => h.of_touched htouched fun _ _ hq => proper_remotes hq)
      fun _ _ htouched => h.of_touched htouched fun _ _ hq => proper_remotes hq

end Sync

/-! ## Runs -/

/-- One step of a fabric's life: a snapshot, a purge or a pull, whether it
succeeds or not, or anything that leaves the fabric alone. -/
inductive Operation (X : Crates) (st : Store) : Machine → Machine → Prop
  | create {m : Machine} (scanRoot : Path) (message : Bytes) (actor : Option Bytes) :
      Operation X st m (finalState (Snapshot.createFromActor X st scanRoot message actor m))
  | purge {m : Machine} (order : List Hash → List Hash) (root : Path) (rel : Bytes) :
      Operation X st m (finalState (Purge.run X st order root rel m))
  | pull {m : Machine} (addr : Bytes) (peer : Sync.Peer) :
      Operation X st m (finalState (Sync.pull X st addr peer m))
  | outside {m m' : Machine} (h : ∀ q, st.fabricDir <+: q → m'.fs.get q = m.fs.get q) :
      Operation X st m m'

/-- Soundness is about the fabric. -/
theorem Sound.of_outside {fs fs' : Fs} (h : Sound X st fs)
    (hsame : ∀ q, st.fabricDir <+: q → fs'.get q = fs.get q) : Sound X st fs' := by
  refine ⟨⟨?_, ?_⟩, ?_⟩
  · rw [hsame _ (List.prefix_refl _)]
    exact h.real.dir
  · intro q t hq ht
    rw [hsame q hq] at ht
    exact h.real.links q t hq ht
  · intro q d hd
    constructor
    · intro g hg
      have hq : st.fabricDir <+: q := hg ▸ List.prefix_append _ _
      exact (h.addressed q d (hsame q hq ▸ hd)).object g hg
    · intro g hg
      have hq : st.fabricDir <+: q := hg ▸ List.prefix_append _ _
      exact (h.addressed q d (hsame q hq ▸ hd)).manifest g hg

/-- One operation keeps the store content addressed. -/
theorem Operation.sound {m m' : Machine} (hzstd : Lossless X) (h : Sound X st m.fs)
    (hstep : Operation X st m m') : Sound X st m'.fs := by
  cases hstep with
  | create scanRoot message actor =>
      exact (Snapshot.createFromActor_sound hzstd h).final
        (P := fun m' : Machine => Sound X st m'.fs)
  | purge order root rel =>
      exact (Purge.run_sound h).final (P := fun m' : Machine => Sound X st m'.fs)
  | pull addr peer => exact
      (Sync.pull_sound hzstd h).final (P := fun m' : Machine => Sound X st m'.fs)
  | outside hsame => exact h.of_outside hsame

variable (X st)

/-- **The store is content addressed against any peer.**  After any sequence of
snapshots, purges and pulls every object file decompresses to bytes that hash to
its name and every manifest file hashes to its name; and no pull changes HEAD,
the worktree, the tombstones or the audit log. -/
theorem store_content_addressed (m₀ m : Machine) (hzstd : Lossless X) (hreal : st.Real m₀.fs)
    (hstart : Addressed X st m₀.fs) (hrun : Relation.ReflTransGen (Operation X st) m₀ m) :
    (∀ h d, m.fs.get (st.objectPath h) = some (.file d) →
        ∃ data, Decompresses X d.bytes data ∧ X.blake3 data = h) ∧
      (∀ h d, m.fs.get (st.manifestPath h) = some (.file d) → X.blake3 d.bytes = h) ∧
      ∀ addr peer q, q = st.headPath ∨ q = tombstonePath st ∨ q = Audit.auditPath st ∨
          ¬ st.fabricDir <+: q →
        (finalState (Sync.pull X st addr peer m)).fs.get q = m.fs.get q := by
  have hsound : Sound X st m.fs := by
    induction hrun with
    | refl => exact ⟨hreal, hstart⟩
    | tail _ hstep ih => exact Operation.sound hzstd ih hstep
  refine ⟨fun h d hd => (hsound.addressed _ d hd).object h rfl,
    fun h d hd => (hsound.addressed _ d hd).manifest h rfl, ?_⟩
  intro addr peer q hq
  have htouched := (Sync.pull_touches hsound.real : After (Sync.pull X st addr peer m) _ _).final
    (P := fun m' : Machine => st.Touched (Sync.Reaches st) m.fs m'.fs)
  apply htouched.frame
  intro hreach
  obtain ⟨n, rest, heq, hn⟩ := hreach
  have hname : ∀ r : Name, r ∉ [str "objects", str "manifests", str "remotes"] →
      q ≠ st.fabricDir ++ [r] := by
    intro r hr hqr
    rw [hqr] at heq
    exact hr ((List.cons.inj (List.append_cancel_left heq)).1 ▸ hn)
  rcases hq with hq | hq | hq | hq
  · exact hname (str "HEAD") (by decide) hq
  · exact hname (str "purged.jsonl") (by decide) hq
  · exact hname (str "audit.jsonl") (by decide) hq
  · exact hq (heq ▸ List.prefix_append _ _)

/-- Where nothing is compressed, files named by their hashes are what their names
say. -/
theorem Addressed.of_hashes {fs : Fs} (hzstd : ∀ b, Decompresses X b b)
    (h : ∀ k ∈ fs.nodes.keys, (match fs.get k with
      | some (.file d) => decide (∀ n ∈ [str "objects", str "manifests"],
          st.fabricDir ++ [n] <+: k → k = st.fanPath n (X.blake3 d.bytes))
      | _ => true) = true) : Addressed X st fs := by
  intro q d hd
  have hname : ∀ n ∈ [str "objects", str "manifests"], ∀ g : Hash, q = st.fanPath n g →
      X.blake3 d.bytes = g := by
    intro n hn g heq
    have hq := h q (fs.mem_keys hd)
    rw [hd] at hq
    have hself := of_decide_eq_true hq n hn (heq ▸ ⟨_, List.append_assoc _ _ _⟩)
    exact Store.fanPath_injective (hself.symm.trans heq)
  exact ⟨fun g heq => ⟨d.bytes, hzstd _, hname _ (by simp) g heq⟩,
    fun g heq => hname _ (by simp) g heq⟩

/-- In a fabric without objects and manifests every file is what its name says. -/
theorem Addressed.of_keys {fs : Fs}
    (h : ∀ k ∈ fs.nodes.keys, ∀ n ∈ [str "objects", str "manifests"],
      st.fabricDir ++ [n] <+: k → fs.get k = some .dir) : Addressed X st fs := by
  intro q d hd
  have hplace : ∀ n ∈ [str "objects", str "manifests"], ∀ g : Hash,
      q ≠ st.fanPath n g := by
    intro n hn g heq
    have hunder : st.fabricDir ++ [n] <+: q := by
      rw [heq]
      exact ⟨_, List.append_assoc _ _ _⟩
    have hdir := h q (fs.mem_keys hd) n hn hunder
    rw [hdir] at hd
    cases hd
  constructor
  · intro g heq
    exact absurd heq (hplace (str "objects") (by decide) g)
  · intro g heq
    exact absurd heq (hplace (str "manifests") (by decide) g)

/-- The first snapshot of a new fabric. -/
theorem store_content_addressed_first :
    let m := finalState (Snapshot.createFromActor (smallCrates [] [] []) ⟨[str "w"]⟩ [str "w"]
      (str "first") none (Machine.start Purge.keylessFabric))
    (∀ h d, m.fs.get (Store.objectPath ⟨[str "w"]⟩ h) = some (.file d) →
        ∃ data, Decompresses (smallCrates [] [] []) d.bytes data ∧ padHash data = h) ∧
      (∀ h d, m.fs.get (Store.manifestPath ⟨[str "w"]⟩ h) = some (.file d) →
        padHash d.bytes = h) ∧
      ∀ addr peer q, q = Store.headPath ⟨[str "w"]⟩ ∨ q = tombstonePath ⟨[str "w"]⟩ ∨
          q = Audit.auditPath ⟨[str "w"]⟩ ∨ ¬ Store.fabricDir ⟨[str "w"]⟩ <+: q →
        (finalState (Sync.pull (smallCrates [] [] []) ⟨[str "w"]⟩ addr peer m)).fs.get q =
          m.fs.get q := by
  intro m
  exact store_content_addressed (smallCrates [] [] []) ⟨[str "w"]⟩
    (Machine.start Purge.keylessFabric) m (fun _ _ => rfl)
    (Store.Real.of_keys (by decide +kernel) (by decide +kernel))
    (Addressed.of_keys _ _ (by decide +kernel))
    (Relation.ReflTransGen.single (Operation.create [str "w"] (str "first") none))

end Respawn
