import Respawn.Audit
import Respawn.Keychain

/-!
# Purge

`run` reads everything it needs first (`plan`), then sweeps objects, appends a
tombstone and removes the live file, and only then looks up the signing key,
the audit tip and the fabric id for the certificate, and records the event.

A purge that fails has left the fabric as it was exactly when it failed before
its first change: `run_intact_iff`.
-/

namespace Respawn

open ByteStr FileTree StateLogic

variable (X : Crates) (st : Store)

namespace Purge

/-- What the checks before the first change make of a path: its name in
manifests, the content to erase, the chunks recorded for it and for other
paths, and the number of manifests it occurs in. -/
structure Plan where
  rel : RelPath
  relStr : Bytes
  content : Hash
  chunks : List Hash
  elsewhere : List Hash
  manifestsTouched : Nat

/-- The hash of the live file, if there is one. -/
def liveContent (live : Path) (fs : Fs) : Except Error (Option Hash) :=
  if fs.isFile live then
    match fs.read live with
    | .ok data => .ok (some (X.blake3 data))
    | .error e => .error (.io e)
  else .ok none

/-- The scan of the manifests for a path: its newest content, its chunks, the
chunks of other paths, and the number of manifests that have it. -/
def scanManifests (relStr : Bytes) (manifests : List (Hash × Manifest)) :
    Option Hash × List Hash × List Hash × Nat :=
  let files := manifests.flatMap fun s => s.2.files
  let hits := files.filter fun fe => fe.path = relStr
  let others := files.filter fun fe => fe.path ≠ relStr
  (hits.head?.map FileEntry.content, (hits.flatMap FileEntry.chunks).dedup,
    others.flatMap FileEntry.chunks,
    manifests.countP fun s => s.2.files.any fun fe => fe.path = relStr)

/-- Everything `run` reads before its first change. -/
def plan (root : Path) (rel : Bytes) (fs : Fs) : Except Error Plan :=
  match sanitizeRel rel with
  | .error e => .error e
  | .ok r => match liveContent X (r.under root) fs with
    | .error e => .error e
    | .ok live => match Snapshot.list X st fs with
      | .error e => .error e
      | .ok manifests =>
          let relStr := replaceByte backslash slash (lossy r.text)
          let (newest, chunks, elsewhere, touched) := scanManifests relStr manifests
          match live.or newest with
          | none => .error (.corrupt
              (str "nothing to purge: " ++ relStr ++ str " not in worktree or history"))
          | some content => match isPurged X st relStr content fs with
            | .error e => .error e
            | .ok true => .error (.corrupt (relStr ++ str " is already purged"))
            | .ok false => .ok { rel := r
                                 relStr := relStr
                                 content := content
                                 chunks := chunks
                                 elsewhere := elsewhere
                                 manifestsTouched := touched }

/-- Delete the chunks that nothing else references; how many were deleted and
how many are shared. -/
def sweep (elsewhere : List Hash) : List Hash → Nat × Nat → Sys (Nat × Nat)
  | [], counts => pure counts
  | ch :: rest, (removed, shared) =>
      if ch ∈ elsewhere then sweep elsewhere rest (removed, shared + 1)
      else do
        let present ← look fun fs => .ok (st.hasObject fs ch)
        if present then do
          io (removeFile (st.objectPath ch))
          sweep elsewhere rest (removed + 1, shared)
        else sweep elsewhere rest (removed, shared)

/-- `purge_id`. -/
def purgeId (p : Plan) : Bytes := hashHex (X.blake3 (p.relStr ++ str ":" ++ hashHex p.content))

/-- The tombstone of a purge. -/
def tombstone (p : Plan) (ts : Nat) : Tombstone :=
  { path := p.relStr
    content := hashHex p.content
    purgeId := (purgeId X p).take 16
    ts := ts }

/-- Append the tombstone. -/
def bury (p : Plan) (ts : Nat) : Sys Unit := do
  io (createDirAll st.fabricDir)
  Store.appendLine (tombstonePath st) (X.tombstoneToJson (tombstone X p ts))

/-- Remove the live file; was there one? -/
def removeLive (live : Path) : Sys Bool := do
  let present ← look fun fs => .ok (fs.isFile live)
  if present then do
    io (removeFile live)
    pure true
  else pure false

def purgesDir : Path := st.fabricDir ++ [str "purges"]

/-- Sign the certificate and put it in place; its path and the operator's note. -/
def certify (p : Plan) (counts : Nat × Nat) (ts : Nat) : Sys (Path × Option Bytes) := do
  let (raw, _, note) ← Keychain.get st
  let (auditLen, auditTip) ← look (Audit.tip X st)
  let fabricId ← Anchor.fabricId st
  let payload := X.payloadToJson { kind := str "respawn-purge"
                                   version := 1
                                   fabricId := fabricId
                                   path := p.relStr
                                   content := hashHex p.content
                                   chunksRemoved := counts.1
                                   chunksRetainedShared := counts.2
                                   manifestsTouched := p.manifestsTouched
                                   auditLen := auditLen
                                   auditTip := auditTip
                                   ts := ts }
  let cert : PurgeCert := { format := str "respawn-purge/v1"
                            pubkey := hexEncode (X.verifyingKey raw.val)
                            payload := payload
                            sig := hexEncode (X.sign raw.val payload) }
  io (createDirAll (purgesDir st))
  let certPath := purgesDir st ++
    [str "purge-" ++ decimal ts ++ str "-" ++ (purgeId X p).take 8 ++ str ".json"]
  let tmp ← tmpPath (purgesDir st) (str "purge")
  io (writeFile tmp (X.certToJson cert))
  io (rename tmp certPath)
  pure (certPath, note)

/-- Report of one purge run. -/
structure PurgeReport where
  certPath : Path
  chunksRemoved : Nat
  chunksRetainedShared : Nat
  manifestsTouched : Nat
  liveRemoved : Bool
  note : Option Bytes

/-- The part of `run` after the sweep. -/
def finish (root : Path) (p : Plan) (counts : Nat × Nat) : Sys PurgeReport := do
  let m ← get
  let ts := unixSecs m.clock
  bury X st p ts
  let liveRemoved ← removeLive (p.rel.under root)
  let (certPath, note) ← certify X st p counts ts
  Audit.record X st (str "purge") (p.relStr ++ str " removed=" ++ decimal counts.1 ++
    str " shared=" ++ decimal counts.2)
  pure { certPath := certPath
         chunksRemoved := counts.1
         chunksRetainedShared := counts.2
         manifestsTouched := p.manifestsTouched
         liveRemoved := liveRemoved
         note := note }

/-- Purge `rel` from the fabric.  `order` is the order in which a hash set
hands out its elements. -/
def run (order : List Hash → List Hash) (root : Path) (rel : Bytes) : Sys PurgeReport := do
  let p ← look (plan X st root rel)
  let counts ← sweep st p.elsewhere (order p.chunks) (0, 0)
  finish X st root p counts

/-! ## What the steps do -/

variable {X st}

/-- A path of the fabric directly under a record's name. -/
theorem record_names {fs : Fs} (hreal : st.Real fs) {n : Name} (hn : ValidName n) :
    ∀ x ∈ st.fabricDir ++ [n], ValidName x := by
  intro x hx
  rcases List.mem_append.mp hx with hx | hx
  · exact fs.valid_of_get hreal.dir hx
  · rw [List.mem_singleton.mp hx]
    exact hn

/-- Tombstones that can be read are the text of a file. -/
theorem hasText_of_tombstones {fs : Fs} {tombs : List Tombstone} (hreal : st.Real fs)
    (h : tombstones X st fs = .ok tombs) : ∃ text, fs.HasText (tombstonePath st) text := by
  cases hx : fs.get (tombstonePath st) with
  | none => exact ⟨[], Or.inl ⟨hx, rfl⟩⟩
  | some x =>
      cases x with
      | file d => exact ⟨d.bytes, Or.inr ⟨d, hx, rfl⟩⟩
      | symlink t => exact absurd hx (hreal.links _ t (List.prefix_append _ _))
      | dir =>
          have hmeta := Fs.metadata_of_get hx (by simp)
          simp [tombstones, Fs.readToString, Fs.read, hmeta] at h

/-- What a plan has read. -/
theorem plan_eq_ok {root : Path} {rel : Bytes} {fs : Fs} {p : Plan}
    (h : plan X st root rel fs = .ok p) :
    sanitizeRel rel = .ok p.rel ∧ isPurged X st p.relStr p.content fs = .ok false := by
  unfold plan at h
  split at h
  · cases h
  case _ r hr =>
    split at h
    · cases h
    · split at h
      · cases h
      · simp only at h
        split at h
        · cases h
        · split at h
          · cases h
          · cases h
          case _ hpurged =>
            cases h
            exact ⟨hr, hpurged⟩

/-- A purge is planned only where the tombstones can be read. -/
theorem hasText_of_plan {root : Path} {rel : Bytes} {fs : Fs} {p : Plan} (hreal : st.Real fs)
    (h : plan X st root rel fs = .ok p) : ∃ text, fs.HasText (tombstonePath st) text := by
  have hpurged := (plan_eq_ok h).2
  unfold isPurged at hpurged
  cases htombs : tombstones X st fs with
  | error e => rw [htombs] at hpurged; cases hpurged
  | ok tombs => exact hasText_of_tombstones hreal htombs

theorem tombstonePath_ne_objectPath (g : Hash) : tombstonePath st ≠ st.objectPath g := by
  intro heq
  have hlen := congrArg List.length heq
  simp [tombstonePath, Store.objectPath, Store.fanPath] at hlen

/-- The chunks that a sweep deletes. -/
def unshared (elsewhere chunks : List Hash) : List Hash := chunks.filter (· ∉ elsewhere)

/-- The objects of `chunks` are gone, and only they; none was a directory. -/
structure Swept (st : Store) (chunks : List Hash) (fs fs' : Fs) : Prop where
  touched : st.Touched (fun q => ∃ h ∈ chunks, q = st.objectPath h) fs fs'
  gone : ∀ h ∈ chunks, fs'.get (st.objectPath h) = none
  files : ∀ h ∈ chunks, fs.get (st.objectPath h) ≠ some .dir

theorem Swept.nil {fs : Fs} (hreal : st.Real fs) : Swept st [] fs fs :=
  ⟨Store.Touched.refl hreal, by simp, by simp⟩

/-- One more chunk swept, before the others. -/
theorem Swept.cons {ch : Hash} {chunks : List Hash} {fs₁ fs₂ fs₃ : Fs}
    (hfirst : st.Touched (fun q => q = st.objectPath ch) fs₁ fs₂)
    (hgone : fs₂.get (st.objectPath ch) = none) (hfile : fs₁.get (st.objectPath ch) ≠ some .dir)
    (h : Swept st chunks fs₂ fs₃) : Swept st (ch :: chunks) fs₁ fs₃ := by
  refine ⟨?_, ?_, ?_⟩
  · apply (hfirst.mono ?_).trans (h.touched.mono ?_)
    · intro q hq
      exact ⟨ch, by simp, hq⟩
    · intro q hq
      obtain ⟨g, hg, rfl⟩ := hq
      exact ⟨g, List.mem_cons_of_mem _ hg, rfl⟩
  · intro g hg
    by_cases hin : g ∈ chunks
    · exact h.gone g hin
    · have hg' : g = ch := (List.mem_cons.mp hg).resolve_right hin
      subst hg'
      rw [h.touched.frame, hgone]
      intro hmem
      obtain ⟨f, hf, heq⟩ := hmem
      exact hin (Store.fanPath_injective heq ▸ hf)
  · intro g hg
    by_cases hch : g = ch
    · rw [hch]
      exact hfile
    · have hin := (List.mem_cons.mp hg).resolve_left hch
      have hsame : fs₂.get (st.objectPath g) = fs₁.get (st.objectPath g) :=
        hfirst.frame _ fun heq => hch (Store.fanPath_injective heq)
      rw [← hsame]
      exact h.files g hin

/-- **The sweep** deletes every unshared chunk, or stops at one whose place is
taken by a directory. -/
theorem sweep_after {elsewhere chunks : List Hash} {counts : Nat × Nat} {m : Machine}
    (hreal : st.Real m.fs) :
    After (sweep st elsewhere chunks counts m)
      (fun _ m' => Swept st (unshared elsewhere chunks) m.fs m'.fs ∧
        Machine.Ran (fun _ => True) m m')
      (fun _ m' => ∃ pre h post, unshared elsewhere chunks = pre ++ h :: post ∧
        Swept st pre m.fs m'.fs ∧ m.fs.get (st.objectPath h) = some .dir) := by
  induction chunks generalizing counts m with
  | nil => exact ⟨Swept.nil hreal, Machine.Ran.refl m⟩
  | cons ch rest ih =>
      obtain ⟨removed, shared⟩ := counts
      have hpath : st.fabricDir <+: st.objectPath ch := List.prefix_append _ _
      have hnames : ∀ n ∈ st.objectPath ch, ValidName n :=
        Store.fanPath_names hreal (by decide) ch
      unfold sweep
      by_cases hshared : ch ∈ elsewhere
      · have hskip : unshared elsewhere (ch :: rest) = unshared elsewhere rest :=
          List.filter_cons_of_neg (by simpa using hshared)
        rw [if_pos hshared, hskip]
        exact ih hreal
      · have htake : unshared elsewhere (ch :: rest) = ch :: unshared elsewhere rest :=
          List.filter_cons_of_pos (by simpa using hshared)
        -- what the rest of the sweep gives, once this chunk is gone
        have hrest : ∀ m₁ : Machine, Machine.Ran (fun _ => True) m m₁ →
            st.Touched (fun q => q = st.objectPath ch) m.fs m₁.fs →
            m₁.fs.get (st.objectPath ch) = none → m.fs.get (st.objectPath ch) ≠ some .dir →
            ∀ counts, After (sweep st elsewhere rest counts m₁)
              (fun _ m' => Swept st (ch :: unshared elsewhere rest) m.fs m'.fs ∧
                Machine.Ran (fun _ => True) m m')
              (fun _ m' => ∃ pre h post, ch :: unshared elsewhere rest = pre ++ h :: post ∧
                Swept st pre m.fs m'.fs ∧ m.fs.get (st.objectPath h) = some .dir) := by
          intro m₁ hran hfirst hgone hfile counts
          apply (ih hfirst.real).mono
          · intro _ m' h
            exact ⟨Swept.cons hfirst hgone hfile h.1, hran.trans h.2⟩
          · intro _ m' h
            obtain ⟨pre, g, post, heq, hswept, hdir⟩ := h
            refine ⟨ch :: pre, g, post, by rw [heq]; rfl, Swept.cons hfirst hgone hfile hswept, ?_⟩
            rw [← hdir, hfirst.frame]
            intro hsame
            rw [Store.fanPath_injective hsame, hgone] at hdir
            cases hdir
        rw [if_neg hshared, bind_apply, look_get, htake]
        simp only
        have hexists := hreal.exists_iff hpath hnames
        by_cases hpresent : st.hasObject m.fs ch = true
        · rw [if_pos hpresent]
          obtain ⟨x, hx⟩ := Option.ne_none_iff_exists'.mp (hexists.mp hpresent)
          by_cases hdir : x = .dir
          · -- the removal fails on a directory
            have hres : m.fs.resolve false (st.objectPath ch) = .ok (st.objectPath ch) :=
              Fs.resolve_of_get hx (by simp)
            have hfail : removeFile (st.objectPath ch) m.toWorld =
                .error .isADirectory m.toWorld := by
              unfold removeFile
              simp only [hres, hx, hdir]
            rw [bind_apply]
            simp only [io, hfail]
            exact ⟨[], ch, unshared elsewhere rest, rfl, Swept.nil hreal, by rw [hx, hdir]⟩
          · have hleaf : m.fs.leaf (st.objectPath ch) = some x :=
              m.fs.leaf_eq_some.mpr ⟨hx, hdir⟩
            rw [bind_apply]
            simp only [io, removeFile_of_leaf hleaf]
            apply hrest
            · exact Machine.Ran.perform trivial
            · exact Store.Touched.of_unlink hreal hleaf rfl
            · exact (Fs.get_exec_unlink hleaf _).trans (if_pos rfl)
            · rw [hx]
              exact fun heq => hdir (Option.some.inj heq)
        · rw [if_neg hpresent]
          have hnone : m.fs.get (st.objectPath ch) = none := by
            by_contra hsome
            exact hpresent (hexists.mpr hsome)
          exact hrest m (Machine.Ran.refl m) (Store.Touched.refl hreal) hnone (by simp [hnone]) _

/-- The live file is removed at the place its path leads to. -/
theorem removeLive_after {live : Path} {m : Machine} (hreal : st.Real m.fs) :
    After (removeLive live m)
      (fun _ m' => st.Touched (fun q => m.fs.resolve false live = .ok q) m.fs m'.fs ∧
        (∀ q, m'.fs.get q = m.fs.get q ∨
          (m.fs.resolve false live = .ok q ∧ m'.fs.get q = none)) ∧
        (∀ q d, m.fs.resolve false live = .ok q → m.fs.get q = some (.file d) →
          m'.fs.get q = none) ∧ Machine.Ran (fun _ => True) m m')
      (fun _ m' => m' = m ∧ ∀ q d, m.fs.resolve false live = .ok q →
        m.fs.get q ≠ some (.file d)) := by
  have hfile : ∀ q d, m.fs.resolve false live = .ok q → m.fs.get q = some (.file d) →
      m.fs.isFile live = true := by
    intro q d hres hd
    have hres' := Fs.resolve_follow (by simp [hd]) hres
    simp [Fs.isFile, Fs.metadata, hres', hd]
  unfold removeLive
  rw [bind_apply, look_get]
  simp only
  by_cases hlive : m.fs.isFile live = true
  · rw [if_pos hlive, bind_apply]
    cases hremove : removeFile live m.toWorld with
    | error e w =>
        simp only [io, hremove]
        refine ⟨by rw [removeFile_error hremove], ?_⟩
        intro q d hres hd
        unfold removeFile at hremove
        simp [hres, hd] at hremove
    | ok u w =>
        obtain ⟨r, x, hres, hleaf, rfl⟩ := removeFile_ok hremove
        have hget := Fs.get_exec_unlink hleaf
        simp only [io, hremove]
        refine ⟨Store.Touched.of_unlink hreal hleaf hres, ?_, ?_, Machine.Ran.perform trivial⟩
        · intro q
          by_cases hq : q = r
          · exact Or.inr ⟨hq ▸ hres, (hget q).trans (if_pos hq)⟩
          · exact Or.inl ((hget q).trans (if_neg hq))
        · intro q d hq _
          have heq : r = q := Except.ok.inj (hres.symm.trans hq)
          exact (hget q).trans (if_pos heq.symm)
  · rw [if_neg hlive]
    refine ⟨Store.Touched.refl hreal, fun q => Or.inl rfl, ?_, Machine.Ran.refl m⟩
    intro q d hres hd
    exact absurd (hfile q d hres hd) hlive

/-- The name of a certificate is a proper name. -/
theorem validName_cert (p : Plan) (ts : Nat) : ValidName
    (str "purge-" ++ decimal ts ++ str "-" ++ (purgeId X p).take 8 ++ str ".json") := by
  have hclean : ∀ b, b = slash ∨ b = 0 →
      b ∉ str "purge-" ++ decimal ts ++ str "-" ++ (purgeId X p).take 8 ++ str ".json" := by
    intro b hb hmem
    have hlow : b < 48 := by rcases hb with rfl | rfl <;> decide
    simp only [List.mem_append] at hmem
    rcases hmem with (((hmem | hmem) | hmem) | hmem) | hmem
    · rcases hb with rfl | rfl <;> exact absurd hmem (by decide)
    · exact absurd hlow (UInt8.not_lt.mpr (decimal_digit hmem).1)
    · rcases hb with rfl | rfl <;> exact absurd hmem (by decide)
    · have hdigit : b ∈ purgeId X p := List.mem_of_mem_take hmem
      rcases hexEncode_digit hdigit with h | h
      · exact absurd hlow (UInt8.not_lt.mpr h.1)
      · exact absurd hlow (UInt8.not_lt.mpr (UInt8.le_trans (by decide) h.1))
    · rcases hb with rfl | rfl <;> exact absurd hmem (by decide)
  obtain ⟨rest, hrest⟩ : ∃ rest, str "purge-" ++ decimal ts ++ str "-" ++
      (purgeId X p).take 8 ++ str ".json" = 112 :: 117 :: 114 :: rest := ⟨_, rfl⟩
  refine ⟨by rw [hrest]; simp, by rw [hrest]; simp, by rw [hrest]; simp, ?_, ?_⟩
  · exact hclean slash (Or.inl rfl)
  · exact hclean 0 (Or.inr rfl)

/-- **The certificate** leaves the records of the fabric alone. -/
theorem certify_after {p : Plan} {counts : Nat × Nat} {ts : Nat} {m : Machine}
    (hreal : st.Real m.fs) :
    After (certify X st p counts ts m) (fun _ m' => st.Touched st.Aside m.fs m'.fs)
      (fun _ m' => st.Touched st.Aside m.fs m'.fs) := by
  have hside : ∀ rest, st.Aside (purgesDir st ++ rest) := fun rest =>
    ⟨str "purges", rest, by simp [purgesDir], by decide⟩
  have hdir : st.fabricDir <+: purgesDir st := List.prefix_append _ _
  have hnames := record_names hreal (n := str "purges") (by decide)
  unfold certify
  apply After.bind (Keychain.get_after hreal)
  intro key m₁ h₁
  obtain ⟨raw, placement, note⟩ := key
  apply After.bind (P := fun _ m₂ => m₂ = m₁)
  · exact after_look (fun _ _ => rfl) (fun _ _ => h₁)
  intro tip m₂ hm₂
  subst hm₂
  obtain ⟨auditLen, auditTip⟩ := tip
  apply After.bind ((Anchor.fabricId_after h₁.real).mono (fun _ _ h => h₁.trans h)
    fun _ _ h => h₁.trans h)
  intro fabricId m₃ h₃
  have hmake := Store.Touched.of_createDirAll (S := st.Aside) (w := m₃.toWorld) h₃.real hdir hnames
    fun q hq hne hpre => Store.aside_of_prefix (by simpa using hside []) hq hne hpre
  apply After.bind (P := fun _ m₄ => st.Touched st.Aside m.fs m₄.fs)
  · apply after_io
    exact hmake.mono (fun _ _ h => h₃.trans h) fun _ _ h => h₃.trans h
  intro _ m₄ h₄
  apply After.bind (P := fun tmp m₅ => m₅.fs = m₄.fs ∧
    ∃ n, tmp = purgesDir st ++ [tmpName m₄.pid n (str "purge")])
  · exact ⟨rfl, _, rfl⟩
  intro tmp m₅ h₅
  obtain ⟨hfs, n, rfl⟩ := h₅
  have htmp : ∀ x ∈ purgesDir st ++ [tmpName m₄.pid n (str "purge")], ValidName x := by
    intro x hx
    rcases List.mem_append.mp hx with hx | hx
    · exact hnames x hx
    · rw [List.mem_singleton.mp hx]
      exact validName_tmpName (by decide) (by decide)
  have hwrite : ∀ data, After (writeFile (purgesDir st ++ [tmpName m₄.pid n (str "purge")]) data
      m₅.toWorld) _ _ := fun data => Store.Touched.of_writeFile (S := st.Aside) (hfs ▸ h₄.real)
    (hdir.trans (List.prefix_append _ _)) htmp (hside _)
  have h₅ : st.Touched st.Aside m.fs m₅.fs := hfs ▸ h₄
  apply After.bind (P := fun _ m₆ => st.Touched st.Aside m.fs m₆.fs)
  · apply after_io
    exact (hwrite _).mono (fun _ _ h => h₅.trans h) fun _ _ h => h₅.trans h
  intro _ m₆ h₆
  have hrename := Store.Touched.of_rename (S := st.Aside) (w := m₆.toWorld)
    (p := purgesDir st ++ [tmpName m₄.pid n (str "purge")]) 
    (q := purgesDir st ++ [str "purge-" ++ decimal ts ++ str "-" ++ (purgeId X p).take 8 ++
      str ".json"]) h₆.real (hdir.trans (List.prefix_append _ _))
    (hdir.trans (List.prefix_append _ _)) htmp
    (by
      intro x hx
      rcases List.mem_append.mp hx with hx | hx
      · exact hnames x hx
      · rw [List.mem_singleton.mp hx]
        exact validName_cert p ts) (hside _) (hside _)
  apply After.bind (P := fun _ m₇ => st.Touched st.Aside m.fs m₇.fs)
  · apply after_io
    exact hrename.mono (fun _ _ h => h₆.trans h) fun _ _ h => by rw [h]; exact h₆
  intro _ m₇ h₇
  exact h₇

/-- The tombstone line was appended at a stage `mid`, where the live file still
stood; since then only the live file went away and what is aside changed. -/
structure Interred (st : Store) (live : Path) (text line : Bytes) (fs mid fs' : Fs) : Prop where
  real : st.Real fs'
  written : ∃ d, mid.get (tombstonePath st) = some (.file d) ∧ d.bytes = text ++ (line ++ [10])
  before : ∀ q, q ≠ tombstonePath st → mid.get q = fs.get q
  after : ∀ q, ¬ st.Aside q → fs'.get q = mid.get q ∨
    (mid.resolve false live = .ok q ∧ fs'.get q = none)
  live : ∀ q d, mid.resolve false live = .ok q → mid.get q = some (.file d) → ¬ st.Aside q →
    fs'.get q = none

/-- An event that is recorded changes only the log, one that is not changes nothing. -/
theorem record_after {event detail : Bytes} {m : Machine} (hreal : st.Real m.fs) :
    After (Audit.record X st event detail m)
      (fun _ m' => st.Touched (fun q => q = Audit.auditPath st) m.fs m'.fs)
      (fun _ m' => m'.fs = m.fs) := by
  have hnames := record_names hreal (n := str "audit.jsonl") (by decide)
  unfold Audit.record
  apply After.bind (P := fun _ m₁ => m₁ = m)
  · apply after_io
    rw [createDirAll_of_dir hreal.dir]
    rfl
  intro _ m₁ hm₁
  subst hm₁
  rw [bind_apply, get_apply]
  exact Store.Touched.of_appendLine hreal (List.prefix_append _ _) hnames rfl

theorem tombstonePath_not_aside : ¬ st.Aside (tombstonePath st) :=
  Store.not_aside (by decide)

theorem auditPath_not_aside : ¬ st.Aside (Audit.auditPath st) :=
  Store.not_aside (by decide)

theorem objectPath_not_aside (h : Hash) : ¬ st.Aside (st.objectPath h) :=
  Store.not_aside (by decide)

/-- A sweep does not touch the tombstones. -/
theorem Swept.tombstones_eq {chunks : List Hash} {fs fs' : Fs} (h : Swept st chunks fs fs') :
    fs'.get (tombstonePath st) = fs.get (tombstonePath st) := by
  apply h.touched.frame
  intro hmem
  obtain ⟨g, _, heq⟩ := hmem
  exact tombstonePath_ne_objectPath g heq

/-- A sweep leaves the tombstones. -/
theorem Swept.hasText {chunks : List Hash} {text : Bytes} {fs fs' : Fs}
    (h : Swept st chunks fs fs') (htext : fs.HasText (tombstonePath st) text) :
    fs'.HasText (tombstonePath st) text := by
  unfold Fs.HasText
  rw [h.tombstones_eq]
  exact htext

/-- **Burying** appends the tombstone's line and does nothing else. -/
theorem bury_ok {p : Plan} {ts : Nat} {text : Bytes} {m : Machine} (hreal : st.Real m.fs)
    (htext : m.fs.HasText (tombstonePath st) text) :
    ∃ w d, bury X st p ts m = .ok () { m with toWorld := w } ∧ st.Real w.fs ∧
      w.fs.get (tombstonePath st) = some (.file d) ∧
      d.bytes = text ++ (X.tombstoneToJson (tombstone X p ts) ++ [10]) ∧
      ∀ q, q ≠ tombstonePath st → w.fs.get q = m.fs.get q := by
  have hnames := record_names hreal (n := str "purged.jsonl") (by decide)
  have hdrop : (tombstonePath st).dropLast = st.fabricDir := List.dropLast_concat
  obtain ⟨w, d, hline, hget, hbytes, hframe, _⟩ : ∃ w d, Store.appendLine (tombstonePath st)
      (X.tombstoneToJson (tombstone X p ts)) m = .ok () { m with toWorld := w } ∧
        w.fs.get (tombstonePath st) = some (.file d) ∧ _ := Store.appendLine_ok
    hnames (by simp [tombstonePath]) (by rw [hdrop]; exact hreal.dir) htext
  refine ⟨w, d, ?_, ?_, hget, hbytes, hframe⟩
  · unfold bury
    rw [bind_apply]
    simp only [io, createDirAll_of_dir hreal.dir]
    exact hline
  · have htouched : After (Store.appendLine (tombstonePath st)
        (X.tombstoneToJson (tombstone X p ts)) m) _ _ :=
      Store.Touched.of_appendLine (S := fun q => q = tombstonePath st) hreal
        (List.prefix_append _ _) hnames rfl
    rw [hline] at htouched
    exact htouched.real

/-- **Once the sweep is over**, the tombstone is written, whether the rest
succeeds or not. -/
theorem finish_after {root : Path} {p : Plan} {counts : Nat × Nat} {text : Bytes} {m : Machine}
    (hreal : st.Real m.fs) (htext : m.fs.HasText (tombstonePath st) text) :
    After (finish X st root p counts m)
      (fun _ m' => ∃ mid fs₃, Interred st (p.rel.under root) text
          (X.tombstoneToJson (tombstone X p (unixSecs m.clock))) m.fs mid fs₃ ∧
        st.Touched (fun q => q = Audit.auditPath st) fs₃ m'.fs)
      (fun _ m' => ∃ mid, Interred st (p.rel.under root) text
        (X.tombstoneToJson (tombstone X p (unixSecs m.clock))) m.fs mid m'.fs) := by
  obtain ⟨w, d, hbury, hreal₂, hget, hbytes, hframe⟩ : ∃ w d, bury X st p (unixSecs m.clock) m =
      .ok () { m with toWorld := w } ∧ _ := bury_ok hreal htext
  unfold finish
  rw [bind_apply, get_apply]
  simp only
  rw [bind_apply, hbury]
  simp only
  apply After.bind (P := fun _ m₃ => Interred st (p.rel.under root) text _ m.fs w.fs m₃.fs)
  · apply (removeLive_after (m := { m with toWorld := w }) hreal₂).mono
    · intro _ m₃ h
      obtain ⟨htouched, hafter, hlive, _⟩ := h
      exact ⟨htouched.real, ⟨d, hget, hbytes⟩, hframe, fun q _ => hafter q,
        fun q d hres hd _ => hlive q d hres hd⟩
    · intro _ m₃ h
      obtain ⟨rfl, hnot⟩ := h
      exact ⟨w.fs, hreal₂, ⟨d, hget, hbytes⟩, hframe, fun q _ => Or.inl rfl,
        fun q d hres hd _ => absurd hd (hnot q d hres)⟩
  intro liveRemoved m₃ hinterred
  have hthen : ∀ fs', st.Touched st.Aside m₃.fs fs' →
      Interred st (p.rel.under root) text
        (X.tombstoneToJson (tombstone X p (unixSecs m.clock))) m.fs w.fs fs' := by
    intro fs' h
    refine ⟨h.real, hinterred.written, hinterred.before, ?_, ?_⟩
    · intro q hq
      rw [h.frame q hq]
      exact hinterred.after q hq
    · intro q d hres hd hq
      rw [h.frame q hq]
      exact hinterred.live q d hres hd hq
  apply After.bind (P := fun _ m₄ => st.Touched st.Aside m₃.fs m₄.fs)
  · apply (certify_after hinterred.real).mono (fun _ _ h => h)
    intro _ m₄ h
    exact ⟨w.fs, hthen _ h⟩
  intro cert m₄ h₄
  obtain ⟨certPath, note⟩ := cert
  apply After.bind (P := fun _ m₅ => st.Touched (fun q => q = Audit.auditPath st) m₄.fs m₅.fs)
  · apply (record_after h₄.real).mono (fun _ _ h => h)
    intro _ m₅ h
    rw [h]
    exact ⟨w.fs, hthen _ h₄⟩
  intro _ m₅ h₅
  exact ⟨w.fs, m₄.fs, hthen _ h₄, h₅⟩

/-! ## A purge that fails -/

variable (X st)

/-- The stored objects, the tombstones, the live file and the audit log are
what they were. -/
structure Intact (root : Path) (rel : Bytes) (fs fs' : Fs) : Prop where
  objects : ∀ h, fs'.get (st.objectPath h) = fs.get (st.objectPath h)
  tombstones : fs'.get (tombstonePath st) = fs.get (tombstonePath st)
  live : ∀ r q, sanitizeRel rel = .ok r → fs.resolve false (r.under root) = .ok q →
    fs'.get q = fs.get q
  audit : fs'.get (Audit.auditPath st) = fs.get (Audit.auditPath st)

/-- The first of the chunks that is present has a directory in its place. -/
def Blocked (chunks : List Hash) (fs : Fs) : Prop :=
  ∃ pre h post, chunks = pre ++ h :: post ∧ (∀ g ∈ pre, fs.get (st.objectPath g) = none) ∧
    fs.get (st.objectPath h) = some .dir

/-- No chunk is present, and the path to purge leads to the place of the
tombstone file, which is missing. -/
def OwnTombstones (live : Path) (chunks : List Hash) (fs : Fs) : Prop :=
  (∀ h ∈ chunks, fs.get (st.objectPath h) = none) ∧ fs.get (tombstonePath st) = none ∧
    fs.resolve false live = .ok (tombstonePath st)

/-- The purge fails before it changes anything that counts: its checks fail,
or its sweep is blocked from the start, or it writes and removes a tombstone
file that was not there. -/
def FailsEarly (order : List Hash → List Hash) (root : Path) (rel : Bytes) (fs : Fs) : Prop :=
  ∀ p, plan X st root rel fs = .ok p →
    Blocked st (unshared p.elsewhere (order p.chunks)) fs ∨
      OwnTombstones st (p.rel.under root) (unshared p.elsewhere (order p.chunks)) fs

variable {X st}

/-- A sweep of absent chunks leaves every node alone. -/
theorem Swept.get_eq {chunks : List Hash} {fs fs' : Fs} (h : Swept st chunks fs fs')
    (hnone : ∀ g ∈ chunks, fs.get (st.objectPath g) = none) (q : Path) : fs'.get q = fs.get q := by
  by_cases hq : ∃ g ∈ chunks, q = st.objectPath g
  · obtain ⟨g, hg, rfl⟩ := hq
    rw [h.gone g hg, hnone g hg]
  · exact h.touched.frame q hq

/-- A sweep that stopped. -/
theorem intact_iff_of_stopped {chunks pre post : List Hash} {g : Hash} {root : Path}
    {live : Path} {rel : Bytes} {fs fs' : Fs} (hchunks : chunks = pre ++ g :: post)
    (hswept : Swept st pre fs fs') (hdir : fs.get (st.objectPath g) = some .dir) :
    Intact st root rel fs fs' ↔ Blocked st chunks fs ∨ OwnTombstones st live chunks fs := by
  constructor
  · intro h
    refine Or.inl ⟨pre, g, post, hchunks, ?_, hdir⟩
    intro a ha
    rw [← h.objects a]
    exact hswept.gone a ha
  · intro h
    have hnone : ∀ a ∈ pre, fs.get (st.objectPath a) = none := by
      rcases h with ⟨pre', g', post', hchunks', hnone', hdir'⟩ | ⟨hnone, _, _⟩
      · -- no chunk before the first directory was present, so none before `g`
        have hsplit := hchunks.symm.trans hchunks'
        intro a ha
        by_contra hsome
        have hin : a ∉ pre' := fun hin => hsome (hnone' a hin)
        rcases List.append_eq_append_iff.mp hsplit with ⟨mid, hpre', _⟩ | ⟨mid, hpre, hmid⟩
        · exact hin (hpre' ▸ List.mem_append_left _ ha)
        · cases mid with
          | nil => exact hin (by simpa [hpre] using ha)
          | cons b mid =>
              have hb : g' = b := (List.cons.inj hmid).1
              have hmem : g' ∈ pre := by rw [hpre, hb]; simp
              exact hswept.files g' hmem hdir'
      · intro a ha
        exact hnone a (hchunks ▸ List.mem_append_left _ ha)
    have hsame := hswept.get_eq hnone
    exact ⟨fun _ => hsame _, hsame _, fun _ q _ _ => hsame q, hsame _⟩

/-- A sweep takes only files away, so paths lead where they led. -/
theorem Swept.sameShape {chunks : List Hash} {fs fs' : Fs} (hreal : st.Real fs)
    (h : Swept st chunks fs fs') : Fs.SameShape fs fs' := by
  intro q
  by_cases hmem : ∃ g ∈ chunks, q = st.objectPath g
  · obtain ⟨g, hg, rfl⟩ := hmem
    right
    refine ⟨?_, Or.inl (h.gone g hg)⟩
    cases hx : fs.get (st.objectPath g) with
    | none => exact Or.inl rfl
    | some x =>
        cases x with
        | file d => exact Or.inr ⟨d, rfl⟩
        | dir => exact absurd hx (h.files g hg)
        | symlink t => exact absurd hx (hreal.links _ t (List.prefix_append _ _))
  · exact Or.inl (h.touched.frame q hmem)

/-- So does writing a tombstone. -/
theorem sameShape_of_buried {text : Bytes} {fs mid : Fs} {d : FileData}
    (htext : fs.HasText (tombstonePath st) text)
    (hwritten : mid.get (tombstonePath st) = some (.file d))
    (hbefore : ∀ q, q ≠ tombstonePath st → mid.get q = fs.get q) : Fs.SameShape fs mid := by
  intro q
  by_cases hq : q = tombstonePath st
  · right
    rw [hq]
    refine ⟨?_, Or.inr ⟨d, hwritten⟩⟩
    rcases htext with ⟨hnone, _⟩ | ⟨d', hd', _⟩
    · exact Or.inl hnone
    · exact Or.inr ⟨d', hd'⟩
  · exact Or.inl (hbefore q hq)

/-- A sweep that ended, and then a tombstone. -/
theorem intact_iff_of_interred {chunks : List Hash} {root live : Path} {rel text line : Bytes}
    {r : RelPath} {fs fs₁ mid fs' : Fs} (hreal : st.Real fs) (hrel : sanitizeRel rel = .ok r)
    (hlive : live = r.under root) (hswept : Swept st chunks fs fs₁)
    (htext : fs₁.HasText (tombstonePath st) text)
    (h : Interred st live text line fs₁ mid fs') :
    Intact st root rel fs fs' ↔ Blocked st chunks fs ∨ OwnTombstones st live chunks fs := by
  have htomb := hswept.tombstones_eq
  obtain ⟨d, hd, hbytes⟩ := h.written
  have hshape := (hswept.sameShape hreal).trans (sameShape_of_buried htext hd h.before)
  have hlead : ∀ q, mid.resolve false live = .ok q ↔ fs.resolve false live = .ok q := fun q =>
    ⟨Fs.resolve_shape hshape.symm, Fs.resolve_shape hshape⟩
  constructor
  · intro hintact
    right
    have hgone : fs'.get (tombstonePath st) ≠ mid.get (tombstonePath st) := by
      intro hsame
      rw [hintact.tombstones, ← htomb, hd] at hsame
      rcases htext with ⟨hnone, _⟩ | ⟨d', hd', hbytes'⟩
      · rw [hnone] at hsame
        cases hsame
      · rw [hd'] at hsame
        cases hsame
        rw [hbytes'] at hbytes
        have hlen := congrArg List.length hbytes
        simp at hlen
    obtain ⟨hres, hnone⟩ := (h.after _ tombstonePath_not_aside).resolve_left hgone
    refine ⟨?_, by rw [← hintact.tombstones, hnone], (hlead _).mp hres⟩
    intro g hg
    rw [← hintact.objects g]
    rcases h.after _ (objectPath_not_aside g) with heq | ⟨_, hnone'⟩
    · rw [heq, h.before _ (tombstonePath_ne_objectPath g).symm, hswept.gone g hg]
    · exact hnone'
  · intro hearly
    rcases hearly with ⟨pre, g, post, hchunks, _, hdir⟩ | ⟨hnone, hnone', hres⟩
    · exact absurd hdir (hswept.files g (by rw [hchunks]; simp))
    · have hres' := (hlead _).mpr hres
      have hgone := h.live _ d hres' hd tombstonePath_not_aside
      have hsame : ∀ q, ¬ st.Aside q → q ≠ tombstonePath st → fs'.get q = fs.get q := by
        intro q hq hne
        rcases h.after q hq with heq | ⟨hq', _⟩
        · rw [heq, h.before q hne, hswept.get_eq hnone]
        · exact absurd (Except.ok.inj (hq'.symm.trans hres')) hne
      have hlast : fs'.get (tombstonePath st) = fs.get (tombstonePath st) := by
        rw [hgone, hnone']
      refine ⟨?_, hlast, ?_, ?_⟩
      · intro g
        exact hsame _ (objectPath_not_aside g) (tombstonePath_ne_objectPath g).symm
      · intro r' q hrel' hq
        rw [hrel] at hrel'
        cases hrel'
        rw [← hlive, hres] at hq
        cases hq
        exact hlast
      · apply hsame _ auditPath_not_aside
        intro heq
        exact absurd (List.append_cancel_left heq) (by decide)

variable (X st)

/-- **When a failed purge leaves the fabric as it was**: exactly when it fails
early. -/
theorem run_intact_iff (order : List Hash → List Hash) (root : Path) (rel : Bytes) (e : Error)
    (m m' : Machine) (hreal : st.Real m.fs)
    (hrun : run X st order root rel m = .error e m') :
    Intact st root rel m.fs m'.fs ↔ FailsEarly X st order root rel m.fs := by
  unfold run at hrun
  cases hplan : plan X st root rel m.fs with
  | error e' =>
      rcases bind_eq_error.mp hrun with hlook | ⟨p, _, hlook, _⟩
      · rw [(look_eq_error.mp hlook).2]
        refine ⟨?_, fun _ => ⟨fun _ => rfl, rfl, fun _ _ _ _ => rfl, rfl⟩⟩
        intro _ p hp
        rw [hplan] at hp
        cases hp
      · rw [(look_eq_ok.mp hlook).1] at hplan
        cases hplan
  | ok p =>
      have hearly : FailsEarly X st order root rel m.fs ↔
          Blocked st (unshared p.elsewhere (order p.chunks)) m.fs ∨
            OwnTombstones st (p.rel.under root) (unshared p.elsewhere (order p.chunks)) m.fs := by
        refine ⟨fun h => h p hplan, ?_⟩
        intro h p' hp'
        rw [hplan] at hp'
        cases hp'
        exact h
      obtain ⟨hrel, _⟩ := plan_eq_ok hplan
      obtain ⟨text, htext⟩ := hasText_of_plan hreal hplan
      rw [hearly]
      rw [bind_apply, look_eq_ok.mpr ⟨hplan, rfl⟩] at hrun
      simp only at hrun
      have hsweep : After (sweep st p.elsewhere (order p.chunks) (0, 0) m) _ _ := sweep_after hreal
      rcases bind_eq_error.mp hrun with hstop | ⟨counts, m₁, hdone, hfinish⟩
      · rw [hstop] at hsweep
        obtain ⟨pre, g, post, hchunks, hswept, hdir⟩ := hsweep
        exact intact_iff_of_stopped hchunks hswept hdir
      · rw [hdone] at hsweep
        obtain ⟨hswept, _⟩ := hsweep
        have htext₁ := hswept.hasText htext
        have hend : After (finish X st root p counts m₁) _ _ :=
          finish_after hswept.touched.real htext₁
        rw [hfinish] at hend
        obtain ⟨mid, hinterred⟩ := hend
        exact intact_iff_of_interred hreal hrel rfl hswept htext₁ hinterred

/-- A worktree at `w` with the file `a`, a new fabric and no signing key. -/
def keylessFabric : Fs :=
  Fs.build (Store.fabricNodes ⟨[str "w"]⟩ [] ++
    [([str "w", str "a"], Store.plainFile (str "secret"))])

/-- Purging `a` there. -/
def keylessPurge : EStateM.Result Error Machine PurgeReport :=
  run (smallCrates [] [] []) ⟨[str "w"]⟩ id [str "w"] (str "a") (Machine.start keylessFabric)

theorem keylessPurge_fails : ∃ e, keylessPurge = .error e (finalState keylessPurge) :=
  exists_of_failed (by decide +kernel)

/-- It has written a tombstone. -/
theorem keylessPurge_writes : (finalState keylessPurge).fs.get (tombstonePath ⟨[str "w"]⟩) ≠
    keylessFabric.get (tombstonePath ⟨[str "w"]⟩) := by
  decide +kernel

/-- Without a signing key the purge fails after it wrote a tombstone and removed
the live file. -/
theorem run_buries_without_key :
    ¬ (∀ e m', keylessPurge = .error e m' →
      Intact ⟨[str "w"]⟩ [str "w"] (str "a") keylessFabric m'.fs) := by
  intro h
  obtain ⟨e, hrun⟩ := keylessPurge_fails
  exact keylessPurge_writes (h e _ hrun).tombstones

/-- That purge does not fail early. -/
theorem run_intact_iff_keyless :
    ¬ FailsEarly (smallCrates [] [] []) ⟨[str "w"]⟩ id [str "w"] (str "a")
      (Machine.start keylessFabric).fs := by
  obtain ⟨e, hrun⟩ := keylessPurge_fails
  intro hearly
  have hintact := (run_intact_iff (smallCrates [] [] []) ⟨[str "w"]⟩ id [str "w"] (str "a") e
    (Machine.start keylessFabric) (finalState keylessPurge)
    (Store.Real.of_keys (by decide +kernel) (by decide +kernel)) hrun).mpr hearly
  exact keylessPurge_writes hintact.tombstones

end Purge

end Respawn
