import Respawn.Checkpoint
import Respawn.Schedule

/-!
# The line of anchors

Every `create` signs the hash that it finds in the marker and then puts the
hash of the new anchor there.  As long as nothing else writes the marker, the
anchors of a fabric's life are a chain: no two of them are the same document,
however alike what they say of the log, and a link is verified between
neighbours only.

* `createFrom_marks` — one `create` carries the marker on.
* `Life.line` — what a whole life of `create` and `next` keeps.
* `verifyLink_iff` — which links are verified, for documents that the verifier
  is willing to read.
-/

namespace Respawn

open ByteStr FileTree StateLogic

namespace Anchor

variable (A : AnchorCrates) (st : Store)

/-- The fabric directory leads to `F`, and its key, its identity and its marker
are no links. -/
structure Fit (F : Path) (fs : Fs) : Prop where
  owned : Owned st fs F
  marker : ∀ t, fs.get (F ++ [str "last_anchor"]) ≠ some (.symlink t)

/-- What goes on between two anchors: the marker is not written. -/
structure Apart (F : Path) (m m' : Machine) : Prop where
  fit : Fit st F m'.fs
  kept : m'.fs.get (F ++ [str "last_anchor"]) = m.fs.get (F ++ [str "last_anchor"])

/-- The anchor that a successful `create` leaves at `out`. -/
def mintedFrom (cwd : Path) (out : OutPath) (m : Machine) : Option Mint :=
  match signing A st cwd out m with
  | .ok (payload, file, _) _ => some ⟨out.full cwd, marker st m.fs, payload, file⟩
  | .error _ _ => none

/-- The anchor that a successful `next` leaves in `dir`. -/
def mintedNext (cwd : Path) (dir : OutPath) (m : Machine) : Option Mint :=
  match allot cwd dir m with
  | .ok path m₁ => mintedFrom A st cwd path m₁
  | .error _ _ => none

/-- The name under which an anchor is carried on. -/
def Mint.link (a : Mint) : Bytes := hashHex (A.blake3 (a.bytes A))

/-- The life of a fabric, from before its first anchor: successful `create` and
`next`, each from some directory, and in between whatever leaves the marker
alone. -/
inductive Life (F : Path) : Machine → List Mint → Prop
  | start {m : Machine} (hfit : Fit st F m.fs) (hnone : marker st m.fs = none) : Life F m []
  | apart {m m' : Machine} {mints : List Mint} (life : Life F m mints) (h : Apart st F m m') :
      Life F m' mints
  | create {m m' : Machine} {mints : List Mint} {cwd : Path} {out : OutPath} {o : CreateOutcome}
      (life : Life F m mints) (h : createFrom A st cwd out m = .ok o m') :
      Life F m' (mints ++ (mintedFrom A st cwd out m).toList)
  | next {m m' : Machine} {mints : List Mint} {cwd : Path} {dir : OutPath}
      {r : OutPath × CreateOutcome} (life : Life F m mints)
      (h : nextFrom A st cwd dir m = .ok r m') :
      Life F m' (mints ++ (mintedNext A st cwd dir m).toList)

/-- The anchor was composed by this program with some key. -/
def Composed (a : Mint) : Prop :=
  ∃ raw n tip m m', compose A st raw n tip m = .ok (a.payload, a.file) m'

/-- What a document carries, as far as it can be read. -/
def carries (doc : Bytes) : Option Bytes :=
  match A.anchorOfJson doc with
  | .error _ => none
  | .ok file => match A.anchorPayloadOfJson file.payload with
    | .error _ => none
    | .ok payload => payload.prevAnchor

variable {A st} {F : Path} {fs fs' : Fs}

/-! ## The marker -/

theorem Fit.lands (h : Fit st F fs) : fs.resolve false (st.fabricDir ++ [dot]) = .ok F :=
  Fs.resolve_snoc_dot (fun _ _ hx => hx) h.owned.dir h.owned.leads

/-- The marker is read in the fabric directory. -/
theorem Fit.marker_at (h : Fit st F fs) :
    fs.resolve true (lastAnchorPath st) = .ok (F ++ [str "last_anchor"]) :=
  Fs.resolve_follow h.marker (h.owned.entry (n := str "last_anchor") (by decide))

/-- The marker read is what stands in the file. -/
theorem Fit.marker_eq (h : Fit st F fs) (h' : Fit st F fs')
    (hkept : fs'.get (F ++ [str "last_anchor"]) = fs.get (F ++ [str "last_anchor"])) :
    Anchor.marker st fs' = Anchor.marker st fs := by
  unfold Anchor.marker Fs.readToString Fs.read Fs.metadata
  rw [h.marker_at, h'.marker_at]
  simp only [hkept]

/-- A marker that can be read is a file. -/
theorem Fit.marker_file {name : Bytes} (h : Fit st F fs) (hmark : Anchor.marker st fs = some name) :
    ∃ d, fs.get (F ++ [str "last_anchor"]) = some (.file d) := by
  unfold Anchor.marker Fs.readToString Fs.read Fs.metadata at hmark
  rw [h.marker_at] at hmark
  cases hx : fs.get (F ++ [str "last_anchor"]) with
  | none =>
      simp only [hx] at hmark
      cases hmark
  | some x =>
      cases x with
      | file d => exact ⟨d, rfl⟩
      | dir =>
          simp only [hx] at hmark
          cases hmark
      | symlink t =>
          simp only [hx] at hmark
          cases hmark

/-- What grows stays fit, if the fabric directory still leads anywhere. -/
theorem Fit.grow {c : Path} (h : Fit st F fs) (hgrows : Fs.Grows fs fs')
    (hleads : fs'.resolve false (st.fabricDir ++ [dot]) = .ok c) : Fit st F fs' := by
  obtain rfl := Fs.resolve_grows hgrows h.lands hleads
  have hlink : ∀ n t, fs'.get (F ++ [n]) = some (.symlink t) →
      fs.get (F ++ [n]) = some (.symlink t) := by
    intro n t ht
    have hleaf := hgrows.links _ t (fs'.leaf_eq_some.mpr ⟨ht, by simp⟩)
    exact (fs.leaf_eq_some.mp hleaf).1
  refine ⟨⟨Fs.resolve_of_dot hleads, Fs.resolve_dot hleads, ?_⟩, ?_⟩
  · intro n hn t ht
    exact h.owned.plain n hn t (hlink n t ht)
  · intro t ht
    exact h.marker t (hlink _ t ht)

/-- Touching the key files leaves the marker alone. -/
theorem Fit.keys (h : Fit st F fs) (hkeys : KeyTouched F fs fs') :
    Fit st F fs' ∧ Anchor.marker st fs' = Anchor.marker st fs := by
  have hkept : fs'.get (F ++ [str "last_anchor"]) = fs.get (F ++ [str "last_anchor"]) := by
    apply hkeys.frame
    · intro heq
      exact absurd (List.append_cancel_left heq) (by decide)
    · intro heq
      exact absurd (List.append_cancel_left heq) (by decide)
  have hfit : Fit st F fs' := by
    refine ⟨h.owned.shape hkeys.shape, ?_⟩
    intro t ht
    exact h.marker t (hkept ▸ ht)
  exact ⟨hfit, h.marker_eq hfit hkept⟩

theorem Fit.made (h : Fit st F fs) (hnew : Fs.NewDirs fs fs') :
    Fit st F fs' := by
  have hleads := Fs.resolve_snoc_dot (fun _ _ => hnew.sub) (hnew.sub h.owned.dir) h.owned.leads
  exact h.grow hnew.grows hleads

/-- Making directories leaves the marker alone. -/
theorem Fit.made_marker (h : Fit st F fs) (hnew : Fs.NewDirs fs fs') :
    Anchor.marker st fs' = Anchor.marker st fs := by
  have h' := h.made hnew
  unfold Anchor.marker Fs.readToString Fs.read Fs.metadata
  rw [h.marker_at, h'.marker_at]
  rcases hnew (F ++ [str "last_anchor"]) with heq | ⟨hnone, hdir⟩
  · simp only [heq]
  · simp only [hnone, hdir]

/-- Putting the marker in its place makes it say what was put. -/
theorem replaceFile_marks {tag name : Bytes} {m m₁ m' : Machine} {u : Unit}
    (hfit : Fit st F m.fs) (hgrows : Fs.Grows m.fs m₁.fs)
    (htag : ∀ k, ValidName (tmpName m₁.pid k tag)) (hutf : validUtf8 name = true)
    (htrim : trim name = name)
    (h : Store.replaceFile tag (lastAnchorPath st) name m₁ = .ok u m') :
    Fit st F m'.fs ∧ Anchor.marker st m'.fs = some name := by
  obtain ⟨w, q, hmade, hplace, hfiled, -⟩ := Store.replaceFile_lands htag h
  have hdrop : (lastAnchorPath st).dropLast = st.fabricDir := List.dropLast_concat
  rw [hdrop] at hmade
  obtain ⟨hsome, c, hc⟩ := createDirAll_made.ok hmade
  have hfit' : Fit st F w.fs := hfit.grow (hgrows.trans hsome.newDirs.grows) hc
  have hq := hfit'.owned.entry (n := str "last_anchor") (by decide)
  obtain rfl := Except.ok.inj (hplace.symm.trans hq)
  have hshape := hfiled.shape hfit'.marker
  obtain ⟨-, ⟨d, hd, hbytes⟩, -⟩ := hfiled
  have hfit'' : Fit st F m'.fs := by
    refine ⟨hfit'.owned.shape hshape, ?_⟩
    intro t ht
    rw [hd] at ht
    cases ht
  refine ⟨hfit'', ?_⟩
  unfold Anchor.marker Fs.readToString Fs.read Fs.metadata
  rw [hfit''.marker_at]
  simp only [hd, hbytes, hutf, if_true, htrim]

/-! ## One more anchor -/

/-- **A successful `create` carries the marker on**: the anchor carries the
name that was found, and the marker names the anchor afterwards. -/
theorem createFrom_marks {cwd : Path} {out : OutPath} {m m' : Machine} {o : CreateOutcome}
    (hfit : Fit st F m.fs) (h : createFrom A st cwd out m = .ok o m') :
    ∃ a, mintedFrom A st cwd out m = some a ∧ Composed A st a ∧
      a.payload.prevAnchor = Anchor.marker st m.fs ∧ Fit st F m'.fs ∧
        Anchor.marker st m'.fs = some (a.link A) := by
  unfold createFrom at h
  obtain ⟨⟨payload, file, note⟩, m₁, hsign, hrest⟩ := bind_eq_ok.mp h
  obtain ⟨_, m₂, hwrite, hlast⟩ := bind_eq_ok.mp hrest
  obtain ⟨_, m₃, hmark, hend⟩ := bind_eq_ok.mp hlast
  cases hend
  obtain ⟨-, raw, place, n, tip, mk, hkey, hcompose⟩ := signing_steps hsign
  obtain ⟨hfitk, hmarkk⟩ := hfit.keys (get_keys hfit.owned hkey)
  obtain ⟨hfit₁, -⟩ := hfitk.keys (compose_keys hfitk.owned hcompose)
  -- the anchor's own file may replace a file or a link, but moves no directory
  obtain ⟨w, q, hmade, -, hfiled, -⟩ := Store.replaceFile_lands
    (fun k => validName_tmpName (by decide) (by decide)) hwrite
  have hgrows := (createDirAll_made.ok hmade).1.newDirs.grows.trans hfiled.grows
  obtain ⟨hfit', hmark'⟩ := replaceFile_marks hfit₁ hgrows
    (fun k => validName_tmpName (by decide) (by decide))
    (validUtf8_hexEncode _) (trim_hexEncode _) hmark
  refine ⟨⟨out.full cwd, Anchor.marker st m.fs, payload, file⟩, ?_, ⟨raw, n, tip, mk, m₁, hcompose⟩,
    ?_, hfit', hmark'⟩
  · unfold mintedFrom
    rw [hsign]
  · rw [← hmarkk]
    exact prevAnchor_of_compose hcompose

/-- Looking for a name makes directories only. -/
theorem allot_apart {cwd : Path} {dir path : OutPath} {m m₁ : Machine} (hfit : Fit st F m.fs)
    (h : allot cwd dir m = .ok path m₁) :
    Fit st F m₁.fs ∧ Anchor.marker st m₁.fs = Anchor.marker st m.fs := by
  have hnew := (allot_ok h).1.newDirs
  exact ⟨hfit.made hnew, hfit.made_marker hnew⟩

/-- A successful call mints one anchor, on the marker it found, and leaves its
own. -/
theorem nextFrom_marks {cwd : Path} {dir : OutPath} {m m' : Machine}
    {r : OutPath × CreateOutcome} (hfit : Fit st F m.fs)
    (h : nextFrom A st cwd dir m = .ok r m') :
    ∃ a, mintedNext A st cwd dir m = some a ∧ Composed A st a ∧
      a.payload.prevAnchor = Anchor.marker st m.fs ∧ Fit st F m'.fs ∧
        Anchor.marker st m'.fs = some (a.link A) := by
  unfold nextFrom at h
  obtain ⟨path, m₁, hallot, hrest⟩ := bind_eq_ok.mp h
  obtain ⟨o, m₂, hcreate, hend⟩ := bind_eq_ok.mp hrest
  cases hend
  obtain ⟨hfit₁, hmark⟩ := allot_apart hfit hallot
  obtain ⟨a, ha, hcomposed, hprev, hfit', hmark'⟩ := createFrom_marks hfit₁ hcreate
  refine ⟨a, ?_, hcomposed, hprev.trans hmark, hfit', hmark'⟩
  unfold mintedNext
  rw [hallot]
  exact ha

/-! ## A whole life -/

variable (A st) in
/-- Where a life has come: the marker names the last anchor, and every anchor
carries the name of the one before it. -/
structure Line (F : Path) (m : Machine) (mints : List Mint) : Prop where
  fit : Fit st F m.fs
  marker : Anchor.marker st m.fs = mints.getLast?.map (Mint.link A)
  carried : HashChain.Carried (Mint.link A) (fun a => a.payload.prevAnchor) mints
  composed : ∀ a ∈ mints, Composed A st a

/-- A line is continued by an anchor minted on its marker. -/
theorem Line.concat {m m' : Machine} {mints : List Mint} {a : Mint} (h : Line A st F m mints)
    (hcomposed : Composed A st a) (hprev : a.payload.prevAnchor = Anchor.marker st m.fs)
    (hfit : Fit st F m'.fs) (hmark : Anchor.marker st m'.fs = some (a.link A)) :
    Line A st F m' (mints ++ [a]) := by
  refine ⟨hfit, ?_, h.carried.concat (hprev.trans h.marker), ?_⟩
  · rw [hmark, List.getLast?_concat]
    rfl
  · intro b hb
    rcases List.mem_append.mp hb with hold | hnew
    · exact h.composed b hold
    · rwa [List.mem_singleton.mp hnew]

/-- **The line is kept** by all that happens in a life. -/
theorem Life.line {m : Machine} {mints : List Mint} (life : Life A st F m mints) :
    Line A st F m mints := by
  induction life with
  | start hfit hnone =>
      refine ⟨hfit, hnone, ?_, by simp⟩
      intro k c hk
      cases hk
  | @apart m m' mints life h ih =>
      refine ⟨h.fit, ?_, ih.carried, ih.composed⟩
      rw [ih.fit.marker_eq h.fit h.kept]
      exact ih.marker
  | create life h ih =>
      obtain ⟨a, ha, hcomposed, hprev, hfit, hmark⟩ := createFrom_marks ih.fit h
      rw [ha]
      exact ih.concat hcomposed hprev hfit hmark
  | next life h ih =>
      obtain ⟨a, ha, hcomposed, hprev, hfit, hmark⟩ := nextFrom_marks ih.fit h
      rw [ha]
      exact ih.concat hcomposed hprev hfit hmark

/-! ## Which links are verified -/

/-- An anchor file is read when it is under the cap. -/
theorem readAnchorFile_eq_ok {p : Path} {bytes : Bytes} (h : fs.read p = .ok bytes) :
    (∃ got, readAnchorFile p fs = .ok got) ↔ bytes.length ≤ MAX_ANCHOR_BYTES := by
  constructor
  · rintro ⟨got, hgot⟩
    obtain rfl := Except.ok.inj (h.symm.trans (read_of_readAnchorFile hgot))
    unfold readAnchorFile at hgot
    unfold Fs.read at h
    cases hmeta : fs.metadata p with
    | error e =>
        rw [hmeta] at h
        cases h
    | ok x =>
        rw [hmeta] at h hgot
        cases x with
        | file d =>
            cases h
            simp only at hgot
            by_contra hlarge
            rw [if_pos (Nat.lt_of_not_le hlarge)] at hgot
            cases hgot
        | dir => cases h
        | symlink t => cases h
  · exact fun hsmall => ⟨bytes, readAnchorFile_of_read h hsmall⟩

/-- A link is verified between files that can be read. -/
theorem read_of_verifyLink {cur prev : Path} (h : verifyLink A cur prev fs = .ok ()) :
    (∃ got, readAnchorFile prev fs = .ok got) ∧ ∃ got, readAnchorFile cur fs = .ok got := by
  unfold verifyLink at h
  cases hprev : readAnchorFile prev fs with
  | error e =>
      rw [hprev] at h
      cases h
  | ok got =>
      refine ⟨⟨got, rfl⟩, ?_⟩
      simp only [hprev, bind, Except.bind] at h
      cases hchecked : checkedAnchor A got with
      | error e =>
          rw [hchecked] at h
          cases h
      | ok checked =>
          simp only [hchecked] at h
          cases hcur : readAnchorFile cur fs with
          | error e =>
              rw [hcur] at h
              cases h
          | ok got' => exact ⟨got', rfl⟩

/-- For two documents that pass their own checks, the link is what the later
one carries, if both can be read. -/
theorem verifyLink_checked {cur prev : Path} {a b : Mint}
    (hprev : fs.read prev = .ok (a.bytes A)) (hcur : fs.read cur = .ok (b.bytes A))
    (ha : checkedAnchor A (a.bytes A) = .ok (a.file, a.payload))
    (hb : checkedAnchor A (b.bytes A) = .ok (b.file, b.payload)) :
    verifyLink A cur prev fs = .ok () ↔ b.payload.prevAnchor = some (a.link A) ∧
      (a.bytes A).length ≤ MAX_ANCHOR_BYTES ∧ (b.bytes A).length ≤ MAX_ANCHOR_BYTES := by
  by_cases hsmall : (a.bytes A).length ≤ MAX_ANCHOR_BYTES ∧
      (b.bytes A).length ≤ MAX_ANCHOR_BYTES
  · rw [and_iff_left hsmall]
    unfold verifyLink
    simp only [readAnchorFile_of_read hprev hsmall.1, readAnchorFile_of_read hcur hsmall.2, ha, hb,
      bind, Except.bind]
    cases hcarried : b.payload.prevAnchor with
    | none => simp
    | some h =>
        simp only [Option.some.injEq]
        by_cases heq : h = hashHex (A.blake3 (a.bytes A))
        · rw [if_pos heq]
          exact ⟨fun _ => heq, fun _ => rfl⟩
        · rw [if_neg heq]
          exact ⟨fun hok => (nomatch hok), fun hno => absurd hno heq⟩
  · refine ⟨fun hok => absurd ?_ hsmall, fun hall => absurd hall.2 hsmall⟩
    obtain ⟨hone, htwo⟩ := read_of_verifyLink hok
    exact ⟨(readAnchorFile_eq_ok hprev).mp hone, (readAnchorFile_eq_ok hcur).mp htwo⟩

/-- An anchor that reads back carries the link of its payload. -/
theorem carries_of_readBack {a : Mint} (h : ReadBack A a) :
    carries A (a.bytes A) = a.payload.prevAnchor := by
  unfold carries
  rw [h.1]
  simp only [h.2]

/-- **Minted anchors form one chain.**  Of any two anchors in the life of a
fabric, whose files are as they were written, the link from the one to the
other is verified exactly when the one was minted just after the other and
both files are small enough to be read. -/
theorem verifyLink_iff (hsigns : SignsTruly A) {m : Machine} {mints : List Mint}
    (life : Life A st F m mints) (hread : ∀ a ∈ mints, ReadBack A a)
    (hinj : ∀ a ∈ mints, ∀ b ∈ mints, A.blake3 (a.bytes A) = A.blake3 (b.bytes A) →
      a.bytes A = b.bytes A)
    {disk : Fs} {i j : Nat} {a b : Mint} (ha : mints[i]? = some a) (hb : mints[j]? = some b)
    (hprev : disk.read a.out = .ok (a.bytes A)) (hcur : disk.read b.out = .ok (b.bytes A)) :
    verifyLink A b.out a.out disk = .ok () ↔
      j = i + 1 ∧ (a.bytes A).length ≤ MAX_ANCHOR_BYTES ∧
        (b.bytes A).length ≤ MAX_ANCHOR_BYTES := by
  have line := life.line
  have hgenuine : ∀ {k : Nat} {c : Mint}, mints[k]? = some c →
      checkedAnchor A (c.bytes A) = .ok (c.file, c.payload) := by
    intro k c hk
    have hmem := List.mem_of_getElem? hk
    obtain ⟨raw, n, tip, m₁, m₂, hcompose⟩ := line.composed c hmem
    exact checkedAnchor_of_compose hsigns hcompose (hread c hmem).1 (hread c hmem).2
  have hcarried : HashChain.Carried (fun doc => hashHex (A.blake3 doc)) (carries A)
      (mints.map (Mint.bytes A)) :=
    HashChain.Carried.map (f := Mint.bytes A) line.carried fun c hc =>
      carries_of_readBack (hread c hc)
  have hname : ∀ b ∈ mints.map (Mint.bytes A), ∀ c ∈ mints.map (Mint.bytes A),
      hashHex (A.blake3 b) = hashHex (A.blake3 c) → b = c := by
    intro d hd e he hnames
    obtain ⟨x, hx, rfl⟩ := List.mem_map.mp hd
    obtain ⟨y, hy, rfl⟩ := List.mem_map.mp he
    exact hinj x hx y hy (hashHex_injective hnames)
  have hplace := hcarried.carries_iff hname (i := i) (j := j) (b := a.bytes A) (c := b.bytes A)
    (by simp [ha]) (by simp [hb])
  rw [carries_of_readBack (hread b (List.mem_of_getElem? hb))] at hplace
  rw [verifyLink_checked hprev hcur (hgenuine ha) (hgenuine hb)]
  exact and_congr_left' hplace

/-! ## A fabric in order -/

/-- The payload that is signed where the files of the fabric can be read. -/
def payloadIn (st : Store) (m : Machine) (n : Nat) (tip id : Bytes) (head : Option Hash) :
    AnchorPayload :=
  { kind := str "respawn-anchor"
    version := ANCHOR_VERSION
    fabricId := trim id
    auditLen := n
    auditTip := tip
    head := head.map hashHex
    prevAnchor := Anchor.marker st m.fs
    ts := UInt64.ofNat (unixSecs m.clock) }

/-- The file around a payload. -/
def fileOf (A : AnchorCrates) (raw : Keychain.Secret) (payload : AnchorPayload) : AnchorFile :=
  { format := str "respawn-anchor/v1"
    pubkey := hexEncode (A.verifyingKey raw.val)
    payload := A.anchorPayloadToJson payload
    sig := hexEncode (A.sign raw.val (A.anchorPayloadToJson payload)) }

/-- Where the key, the log, the identity and HEAD can be read, an anchor is
signed and nothing changes. -/
theorem signing_in_order {cwd : Path} {out : OutPath} {m : Machine} {raw : Keychain.Secret}
    {place : Keychain.Placement} {note : Option Bytes} {n : Nat} {tip id : Bytes}
    {head : Option Hash} (hcheck : checkOutsideFrom st cwd out m.fs = .ok ())
    (hkey : Keychain.get st m = .ok (raw, place, note) m)
    (htip : Audit.tip A.toCrates st m.fs = .ok (n, tip))
    (hid : m.fs.readToString (fabricIdPath st) = .ok id) (hhead : st.head m.fs = .ok head) :
    signing A st cwd out m = .ok (payloadIn st m n tip id head,
      fileOf A raw (payloadIn st m n tip id head), note) m := by
  have hlook : ∀ {α : Type} {f : Fs → Except Error α} {x : α}, f m.fs = .ok x →
      look f m = .ok x m := fun hf => look_eq_ok.mpr ⟨hf, rfl⟩
  have hname : fabricId st m = .ok (trim id) m := by
    unfold fabricId
    rw [bind_apply, look_get]
    simp only [hid]
    rfl
  have hcompose : compose A st raw n tip m = .ok (payloadIn st m n tip id head,
      fileOf A raw (payloadIn st m n tip id head)) m := by
    unfold compose
    rw [bind_apply, look_get]
    simp only
    rw [bind_apply, hname]
    simp only
    rw [bind_apply, hlook hhead]
    rfl
  unfold signing
  rw [bind_apply, hlook hcheck]
  simp only
  rw [bind_apply, hkey]
  simp only
  rw [bind_apply, hlook htip]
  simp only
  rw [bind_apply, hcompose]
  rfl

/-- A file can be put at `path`: its directory is there, it is none itself, and
the next temporary name is free. -/
structure Replaceable (fs : Fs) (pid n : Nat) (path : Path) : Prop where
  parent : fs.get path.dropLast = some .dir
  nodir : fs.get path ≠ some .dir
  free : fs.get (path.dropLast ++ [tmpName pid n (str "anchor")]) = none

/-- Putting a file in its place changes nothing else. -/
theorem atomicWrite_in_order {path : Path} {data : Bytes} {m : Machine} (hne : path ≠ [])
    (hnames : ∀ n ∈ path, ValidName n) (h : Replaceable m.fs m.pid m.tmpCounter path) :
    ∃ m', atomicWrite path data m = .ok () m' ∧ m'.pid = m.pid ∧
      m'.tmpCounter = m.tmpCounter + 1 ∧ m.fs.Filed m'.fs path data := by
  have htag : ∀ k, ValidName (tmpName m.pid k (str "anchor")) := fun k =>
    validName_tmpName (by decide) (by decide)
  obtain ⟨m', hwrite, hpid, hcount⟩ := @Store.replaceFile_of_free (str "anchor") path data m hne
    hnames (htag _) h.parent h.nodir h.free
  obtain ⟨w, q, hmade, hplace, hfiled, -⟩ := Store.replaceFile_lands htag hwrite
  rw [createDirAll_of_dir h.parent] at hmade
  cases hmade
  have hself := @Fs.resolve_of_parent _ false _ hnames hne h.parent (by simp)
  obtain rfl := Except.ok.inj (hplace.symm.trans hself)
  exact ⟨m', hwrite, hpid, hcount, hfiled⟩

/-- What was signed is written where there is room for it. -/
theorem createFrom_in_order {cwd : Path} {out : OutPath} {m : Machine} {payload : AnchorPayload}
    {file : AnchorFile} {note : Option Bytes}
    (hsign : signing A st cwd out m = .ok (payload, file, note) m) (hne : out.full cwd ≠ [])
    (hnames : ∀ n ∈ out.full cwd, ValidName n)
    (hout : Replaceable m.fs m.pid m.tmpCounter (out.full cwd))
    (hmark : Replaceable m.fs m.pid (m.tmpCounter + 1) (lastAnchorPath st))
    (hapart : out.full cwd ≠
      st.fabricDir ++ [tmpName m.pid (m.tmpCounter + 1) (str "anchor")]) :
    ∃ o m', createFrom A st cwd out m = .ok o m' := by
  have hdrop : (lastAnchorPath st).dropLast = st.fabricDir := List.dropLast_concat
  obtain ⟨m₁, hwrite, hpid, hcount, hfiled⟩ :=
    @atomicWrite_in_order (out.full cwd) (A.anchorToJson file) m hne hnames hout
  obtain ⟨-, ⟨d, hd, -⟩, hframe⟩ := hfiled
  have hdir : m₁.fs.get st.fabricDir = some .dir := by
    have hold := hmark.parent
    rw [hdrop] at hold
    rw [hframe _ (fun heq => hout.nodir (heq ▸ hold)), hold]
  have hlast : ∀ n ∈ lastAnchorPath st, ValidName n := by
    intro n hn
    rcases List.mem_append.mp hn with hn | hn
    · exact m₁.fs.valid_of_get hdir hn
    · rw [List.mem_singleton.mp hn]
      decide
  have hmark₁ : Replaceable m₁.fs m₁.pid m₁.tmpCounter (lastAnchorPath st) := by
    refine ⟨hdrop ▸ hdir, ?_, ?_⟩
    · by_cases heq : lastAnchorPath st = out.full cwd
      · rw [heq, hd]
        simp
      · rw [hframe _ heq]
        exact hmark.nodir
    · have hfree := hmark.free
      rw [hdrop] at hfree ⊢
      rw [hpid, hcount, hframe _ (fun heq => hapart heq.symm), hfree]
  obtain ⟨m₂, hwrite₂, -⟩ := @atomicWrite_in_order (lastAnchorPath st)
    (hashHex (A.blake3 (A.anchorToJson file))) m₁ (by simp [lastAnchorPath]) hlast hmark₁
  refine ⟨{ auditLen := payload.auditLen, note := note }, m₂, ?_⟩
  unfold createFrom
  rw [bind_apply, hsign]
  simp only
  rw [bind_apply, hwrite]
  simp only
  rw [bind_apply, hwrite₂]
  rfl

/-! ## An identity that is too long -/

/-- The anchor of an empty fabric with this identity, at the start of 1970. -/
def barePayload (id : Bytes) (prev : Option Bytes) : AnchorPayload :=
  { payloadAt 0 prev with fabricId := id }

/-- Crates that write down what differs between such anchors. -/
def bareCrates : AnchorCrates :=
  { anchorCrates with
    anchorToJson := fun f => f.payload ++ (f.pubkey ++ f.sig)
    anchorOfJson := fun doc => .ok
      { format := str "respawn-anchor/v1"
        pubkey := (doc.drop (doc.length - 192)).take 64
        payload := doc.take (doc.length - 192)
        sig := doc.drop (doc.length - 128) }
    anchorPayloadToJson := fun p => match p.prevAnchor with
      | none => 48 :: p.fabricId
      | some h => 49 :: (h ++ p.fabricId)
    anchorPayloadOfJson := fun text => match text with
      | [] => .error []
      | c :: rest =>
          if c = 48 then .ok (barePayload rest none)
          else .ok (barePayload (rest.drop 64) (some (rest.take 64))) }

/-- The bare crates sign truly. -/
theorem bareCrates_signs : SignsTruly bareCrates where
  keyLength raw := raw.property
  isKey _ := rfl
  sigLength raw text := checkpointCrates_signs.sigLength raw text
  verifies _ _ := decide_eq_true rfl

/-- The key that the fabric holds. -/
def anchorKey : Keychain.Secret := ⟨anchorSeed, by decide⟩

/-- An anchor of this fabric. -/
def bareMint (name : Name) (found : Option Bytes) (id : Bytes) : Mint :=
  ⟨[name], found, barePayload id found, fileOf bareCrates anchorKey (barePayload id found)⟩

/-- What the fabric with a signing key holds, … -/
theorem anchorFabric_holds : anchorFabric.Room (fabricIdPath ⟨[str "w"]⟩) ∧
    anchorFabric.get [str "w", FABRIC_DIR] = some .dir ∧
    anchorFabric.get (Keychain.secretPath ⟨[str "w"]⟩) =
      some (Store.plainFile (hexEncode anchorSeed)) ∧
    anchorFabric.get (Store.headPath ⟨[str "w"]⟩) = some (Store.plainFile []) := by
  decide +kernel

/-- … and what it does not hold. -/
theorem anchorFabric_lacks : ∀ q ∈ [lastAnchorPath ⟨[str "w"]⟩, Audit.auditPath ⟨[str "w"]⟩,
    [str "one"], [str "two"], [tmpName 1 0 (str "anchor")],
    [str "w", FABRIC_DIR, tmpName 1 1 (str "anchor")]], anchorFabric.get q = none := by
  decide +kernel

/-- A fabric with this identity, and a marker if there is one. -/
def bareFabric (id : Bytes) (marker : Option FileData) : Fs :=
  let fs := anchorFabric.put (fabricIdPath ⟨[str "w"]⟩) (Store.plainFile id)
  match marker with
  | none => fs
  | some d => fs.put (lastAnchorPath ⟨[str "w"]⟩) (.file d)

/-- An anchor of the bare crates reads back. -/
theorem bareMint_readBack {name : Name} {found : Option Bytes} {id : Bytes}
    (hfound : ∀ h, found = some h → h.length = 64) :
    ReadBack bareCrates (bareMint name found id) := by
  constructor
  · -- the key and the signature have their lengths, and stand at the end
    have hdecode : ∀ text key sig : Bytes, key.length = 64 → sig.length = 128 →
        bareCrates.anchorOfJson (text ++ (key ++ sig)) =
          .ok { format := str "respawn-anchor/v1", pubkey := key,
                payload := text, sig := sig } := by
      intro text key sig hkey hsig
      have hfront : (text ++ (key ++ sig)).length - 192 = text.length := by
        simp only [List.length_append, hkey, hsig]
        omega
      have hback : (text ++ (key ++ sig)).length - 128 = (text ++ key).length := by
        simp only [List.length_append, hkey, hsig]
        omega
      show Except.ok _ = _
      simp only [hfront, hback, List.take_left, List.drop_left, List.take_left' hkey]
      rw [← List.append_assoc, List.drop_left]
    apply hdecode
    · show (hexEncode anchorSeed).length = 64
      decide
    · show (hexEncode (bareCrates.sign anchorKey.val _)).length = 128
      rw [hexEncode_length, bareCrates_signs.sigLength]
  · cases found with
    | none => rfl
    | some h =>
        have hlen := hfound h rfl
        show Except.ok (barePayload ((h ++ id).drop 64) (some ((h ++ id).take 64))) = _
        rw [List.take_left' hlen, List.drop_left' hlen]
        rfl

section Bare

variable {id : Bytes} {marker : Option FileData}

/-- The files of the bare fabric. -/
theorem bareFabric_get (q : Path) : (bareFabric id marker).get q =
    match marker with
    | none => if q = fabricIdPath ⟨[str "w"]⟩ then some (Store.plainFile id)
        else anchorFabric.get q
    | some d => if q = lastAnchorPath ⟨[str "w"]⟩ then some (.file d)
        else if q = fabricIdPath ⟨[str "w"]⟩ then some (Store.plainFile id)
        else anchorFabric.get q := by
  obtain ⟨hroom, hdir, -, -⟩ := anchorFabric_holds
  have hget := Fs.get_put hroom (Store.plainFile id)
  cases marker with
  | none => exact hget q
  | some d =>
      have hroom' : (anchorFabric.put (fabricIdPath ⟨[str "w"]⟩) (Store.plainFile id)).Room
          (lastAnchorPath ⟨[str "w"]⟩) := by
        refine ⟨by decide, ?_, ?_, by decide⟩
        · rw [hget, if_neg (by decide)]
          exact hdir
        · rw [hget, if_neg (by decide), anchorFabric_lacks _ (by simp)]
          simp
      show ((anchorFabric.put _ _).put _ _).get q = _
      rw [Fs.get_put hroom', hget]

/-- Besides the identity and the marker the bare fabric is the fabric of the
anchors. -/
theorem bareFabric_frame {q : Path} (hid : q ≠ fabricIdPath ⟨[str "w"]⟩)
    (hlast : q ≠ lastAnchorPath ⟨[str "w"]⟩) :
    (bareFabric id marker).get q = anchorFabric.get q := by
  rw [bareFabric_get]
  cases marker with
  | none => exact if_neg hid
  | some d => exact (if_neg hlast).trans (if_neg hid)

/-- The identity file of the bare fabric. -/
theorem bareFabric_identity :
    (bareFabric id marker).get (fabricIdPath ⟨[str "w"]⟩) = some (Store.plainFile id) := by
  rw [bareFabric_get]
  cases marker with
  | none => exact if_pos rfl
  | some d => exact (if_neg (by decide)).trans (if_pos rfl)

/-- The marker file of the bare fabric. -/
theorem bareFabric_marker :
    (bareFabric id marker).get (lastAnchorPath ⟨[str "w"]⟩) = marker.map .file := by
  rw [bareFabric_get]
  cases marker with
  | none => exact (if_neg (by decide)).trans (anchorFabric_lacks _ (by simp))
  | some d => exact if_pos rfl

theorem bareFabric_dir : (bareFabric id marker).get [str "w", FABRIC_DIR] = some .dir := by
  rw [bareFabric_frame (by decide) (by decide)]
  exact anchorFabric_holds.2.1

/-- The bare fabric is fit for a line of anchors. -/
theorem bareFabric_fit : Fit ⟨[str "w"]⟩ [str "w", FABRIC_DIR] (bareFabric id marker) := by
  refine ⟨⟨Fs.resolve_of_get bareFabric_dir (by simp), bareFabric_dir, ?_⟩, ?_⟩
  · intro n hn t ht
    simp only [List.mem_cons, List.not_mem_nil, or_false] at hn
    rcases hn with rfl | rfl
    · rw [show [str "w", FABRIC_DIR] ++ [str "anchor.secret"] =
        Keychain.secretPath ⟨[str "w"]⟩ from rfl, bareFabric_frame (by decide) (by decide)] at ht
      rw [anchorFabric_holds.2.2.1] at ht
      simp [Store.plainFile] at ht
    · have hid : (bareFabric id marker).get ([str "w", FABRIC_DIR] ++ [str "fabric_id"]) =
        some (Store.plainFile id) := bareFabric_identity
      rw [hid] at ht
      simp [Store.plainFile] at ht
  · intro t ht
    have hlast : (bareFabric id marker).get ([str "w", FABRIC_DIR] ++ [str "last_anchor"]) =
      marker.map .file := bareFabric_marker
    rw [hlast] at ht
    cases marker <;> simp at ht

/-- The key of this fabric is in its file. -/
theorem bareFabric_key : Keychain.get ⟨[str "w"]⟩ (Machine.start (bareFabric id marker)) =
    .ok (anchorKey, .file, none) (Machine.start (bareFabric id marker)) := by
  have hfile : (bareFabric id marker).get (Keychain.secretPath ⟨[str "w"]⟩) =
      some (Store.plainFile (hexEncode anchorSeed)) := by
    rw [bareFabric_frame (by decide) (by decide)]
    exact anchorFabric_holds.2.2.1
  have hread : (bareFabric id marker).readToString (Keychain.secretPath ⟨[str "w"]⟩) =
      .ok (hexEncode anchorSeed) := by
    unfold Fs.readToString
    rw [Fs.read_of_get hfile]
    exact if_pos (validUtf8_hexEncode _)
  have hsecret : Keychain.readSecretFile ⟨[str "w"]⟩ (bareFabric id marker) =
      .ok (some anchorKey) := by
    unfold Keychain.readSecretFile
    rw [hread]
    simp only [trim_hexEncode, hexDecode_hexEncode]
    rfl
  unfold Keychain.get
  rw [if_neg (by simp [Machine.start])]
  unfold Keychain.getFromFile
  rw [bind_apply, look_eq_ok.mpr ⟨hsecret, rfl⟩]
  rfl

/-- The log of the bare fabric is empty. -/
theorem bareFabric_tip :
    Audit.tip bareCrates.toCrates ⟨[str "w"]⟩ (bareFabric id marker) = .ok (0, []) := by
  have hnone : (bareFabric id marker).get (Audit.auditPath ⟨[str "w"]⟩) = none := by
    rw [bareFabric_frame (by decide) (by decide)]
    exact anchorFabric_lacks _ (by simp)
  unfold Audit.tip Fs.exists
  rw [Audit.metadata_of_missing _ bareFabric_dir hnone]
  rfl

/-- The bare fabric has no head. -/
theorem bareFabric_head : Store.head ⟨[str "w"]⟩ (bareFabric id marker) = .ok none := by
  have hfile : (bareFabric id marker).get (Store.headPath ⟨[str "w"]⟩) =
      some (Store.plainFile []) := by
    rw [bareFabric_frame (by decide) (by decide)]
    exact anchorFabric_holds.2.2.2
  unfold Store.head Fs.readToString
  rw [Fs.read_of_get hfile]
  rfl

/-- A name in the root lies outside. -/
theorem bareFabric_outside {name : Name} (hname : ValidName name) :
    checkOutsideFrom ⟨[str "w"]⟩ [] ⟨true, [name]⟩ (bareFabric id marker) = .ok () := by
  rw [checkOutsideFrom_absolute]
  apply (checkOutside_iff (p := []) (by simp) hname).mpr
  have hplace : fabricPlace ⟨[str "w"]⟩ (bareFabric id marker) = [str "w", FABRIC_DIR] :=
    fabricPlace_of_owned bareFabric_fit.owned
  have hroot : dirPlace (bareFabric id marker) [] = [] :=
    dirPlace_eq (a := []) (r := []) (by simp) (canonicalize_of_dir (Fs.get_root _)) (by simp)
  rw [hplace, hroot]
  intro hinside
  have hlen := hinside.length_le
  simp at hlen

/-- The bare fabric signs an anchor and keeps the machine as it was. -/
theorem bareFabric_signs {name : Name} (hname : ValidName name) (hutf : validUtf8 id = true)
    (htrim : trim id = id) :
    ∃ file, signing bareCrates ⟨[str "w"]⟩ [] ⟨true, [name]⟩
        (Machine.start (bareFabric id marker)) = .ok
          (barePayload id (Anchor.marker ⟨[str "w"]⟩ (bareFabric id marker)), file, none)
          (Machine.start (bareFabric id marker)) ∧
      mintedFrom bareCrates ⟨[str "w"]⟩ [] ⟨true, [name]⟩
        (Machine.start (bareFabric id marker)) =
          some (bareMint name (Anchor.marker ⟨[str "w"]⟩ (bareFabric id marker)) id) := by
  have hid : (bareFabric id marker).readToString (fabricIdPath ⟨[str "w"]⟩) = .ok id := by
    unfold Fs.readToString
    rw [Fs.read_of_get bareFabric_identity]
    exact if_pos hutf
  have hsign := @signing_in_order bareCrates ⟨[str "w"]⟩ [] ⟨true, [name]⟩
    (Machine.start (bareFabric id marker)) anchorKey .file none 0 [] id none
    (bareFabric_outside hname) bareFabric_key bareFabric_tip hid bareFabric_head
  have hpayload : payloadIn ⟨[str "w"]⟩ (Machine.start (bareFabric id marker)) 0 [] id none =
      barePayload id (Anchor.marker ⟨[str "w"]⟩ (bareFabric id marker)) := by
    unfold payloadIn
    rw [htrim]
    rfl
  rw [hpayload] at hsign
  refine ⟨_, hsign, ?_⟩
  unfold mintedFrom
  rw [hsign]
  rfl

/-- Anchors of this fabric can be made. -/
theorem bareFabric_creates {name : Name} (hname : ValidName name) (hutf : validUtf8 id = true)
    (htrim : trim id = id) (hfree : anchorFabric.get [name] = none) :
    ∃ o m', createFrom bareCrates ⟨[str "w"]⟩ [] ⟨true, [name]⟩
      (Machine.start (bareFabric id marker)) = .ok o m' := by
  obtain ⟨file, hsign, -⟩ := @bareFabric_signs id marker name hname hutf htrim
  have hshort : ∀ q : Path, q.length ≤ 1 →
      (bareFabric id marker).get q = anchorFabric.get q := by
    intro q hq
    apply bareFabric_frame
    · rintro rfl
      exact absurd hq (by decide)
    · rintro rfl
      exact absurd hq (by decide)
  apply createFrom_in_order hsign (by simp [OutPath.full]) (by simpa [OutPath.full] using hname)
  · refine ⟨Fs.get_root _, ?_, ?_⟩
    · show (bareFabric id marker).get [name] ≠ _
      rw [hshort _ (by simp), hfree]
      simp
    · show (bareFabric id marker).get [tmpName 1 0 (str "anchor")] = none
      rw [hshort _ (by simp)]
      exact anchorFabric_lacks _ (by simp)
  · refine ⟨bareFabric_dir, ?_, ?_⟩
    · show (bareFabric id marker).get (lastAnchorPath ⟨[str "w"]⟩) ≠ _
      rw [bareFabric_marker]
      cases marker <;> simp
    · show (bareFabric id marker).get [str "w", FABRIC_DIR, tmpName 1 1 (str "anchor")] = none
      rw [bareFabric_frame (by decide) (by decide)]
      exact anchorFabric_lacks _ (by simp)
  · intro heq
    have hlen := congrArg List.length heq
    simp [OutPath.full, Store.fabricDir] at hlen

/-- The first two anchors of such a fabric. -/
def bareLine (id : Bytes) : List Mint :=
  [bareMint (str "one") none id,
   bareMint (str "two") (some ((bareMint (str "one") none id).link bareCrates)) id]

/-- Both are made in the life of the fabric. -/
theorem bareLine_life (hutf : validUtf8 id = true) (htrim : trim id = id) :
    ∃ m, Life bareCrates ⟨[str "w"]⟩ [str "w", FABRIC_DIR] m (bareLine id) := by
  have hnone : Anchor.marker ⟨[str "w"]⟩ (bareFabric id none) = none := by
    unfold Anchor.marker Fs.readToString Fs.read Fs.metadata
    rw [bareFabric_fit.marker_at]
    simp only [show (bareFabric id none).get ([str "w", FABRIC_DIR] ++ [str "last_anchor"]) = none
      from bareFabric_marker]
  have hfit : ∀ marker, Fit ⟨[str "w"]⟩ [str "w", FABRIC_DIR]
      (Machine.start (bareFabric id marker)).fs := fun marker => bareFabric_fit
  have hstart : Life bareCrates ⟨[str "w"]⟩ [str "w", FABRIC_DIR]
      (Machine.start (bareFabric id none)) [] := .start (hfit none) hnone
  obtain ⟨-, -, hmint⟩ := @bareFabric_signs id none (str "one") (by decide) hutf htrim
  obtain ⟨o, m₁, hcreate⟩ := @bareFabric_creates id none (str "one") (by decide) hutf htrim
    (anchorFabric_lacks _ (by simp))
  have hone := hstart.create hcreate
  rw [hmint, hnone] at hone
  -- the marker is a file now
  have hline := hone.line
  have hmark : Anchor.marker ⟨[str "w"]⟩ m₁.fs =
      some ((bareMint (str "one") none id).link bareCrates) := hline.marker
  obtain ⟨d, hd⟩ := hline.fit.marker_file hmark
  have hkept : (bareFabric id (some d)).get ([str "w", FABRIC_DIR] ++ [str "last_anchor"]) =
      m₁.fs.get ([str "w", FABRIC_DIR] ++ [str "last_anchor"]) := by
    rw [hd]
    exact bareFabric_marker
  have hapart : Life bareCrates ⟨[str "w"]⟩ [str "w", FABRIC_DIR]
      (Machine.start (bareFabric id (some d))) _ := hone.apart ⟨hfit (some d), hkept⟩
  have hfound := hline.fit.marker_eq bareFabric_fit hkept
  obtain ⟨-, -, hmint₂⟩ := @bareFabric_signs id (some d) (str "two") (by decide) hutf htrim
  obtain ⟨o₂, m₂, hcreate₂⟩ := @bareFabric_creates id (some d) (str "two") (by decide) hutf htrim
    (anchorFabric_lacks _ (by simp))
  have htwo := hapart.create hcreate₂
  rw [hmint₂, hfound, hmark] at htwo
  exact ⟨m₂, htwo⟩

/-- Every anchor of the bare line reads back. -/
theorem bareLine_readBack : ∀ a ∈ bareLine id, ReadBack bareCrates a := by
  intro a ha
  simp only [bareLine, List.mem_cons, List.not_mem_nil, or_false] at ha
  rcases ha with rfl | rfl
  · exact bareMint_readBack (by simp)
  · apply bareMint_readBack
    intro h heq
    rw [← Option.some.inj heq]
    exact hashHex_length _

/-- The first document has no link and the second has one. -/
theorem bareLine_distinct : ∀ a ∈ bareLine id, ∀ b ∈ bareLine id,
    bareCrates.blake3 (a.bytes bareCrates) = bareCrates.blake3 (b.bytes bareCrates) →
      a.bytes bareCrates = b.bytes bareCrates := by
  have hfirst : ∀ found : Option Bytes, ∀ name,
      (bareCrates.blake3 ((bareMint name found id).bytes bareCrates)).val.head? =
        some (if found = none then 48 else 49) := by
    intro found name
    cases found <;> rfl
  intro a ha b hb heq
  have hheads := congrArg (fun h : Hash => h.val.head?) heq
  simp only [bareLine, List.mem_cons, List.not_mem_nil, or_false] at ha hb
  rcases ha with rfl | rfl <;> rcases hb with rfl | rfl
  · rfl
  · simp only [hfirst] at hheads
    exact absurd hheads (by simp)
  · simp only [hfirst] at hheads
    exact absurd hheads (by simp)
  · rfl

end Bare

/-- A disk on which the two documents are kept. -/
def shelf (one two : Bytes) : Fs :=
  (Fs.empty.put [str "one"] (Store.plainFile one)).put [str "two"] (Store.plainFile two)

/-- Both files of the shelf are read as they were put there. -/
theorem shelf_read (one two : Bytes) : (shelf one two).read [str "one"] = .ok one ∧
    (shelf one two).read [str "two"] = .ok two := by
  have hroom : Fs.empty.Room [str "one"] := by decide
  have hget := Fs.get_put hroom (Store.plainFile one)
  have hroom' : (Fs.empty.put [str "one"] (Store.plainFile one)).Room [str "two"] := by
    refine ⟨by simp, Fs.get_root _, ?_, by decide⟩
    rw [hget, if_neg (by decide)]
    decide
  have hget' := Fs.get_put hroom' (Store.plainFile two)
  constructor
  · apply Fs.read_of_get (d := ⟨one, defaultMode, 0⟩)
    exact (hget' _).trans ((if_neg (by decide)).trans ((hget _).trans (if_pos rfl)))
  · apply Fs.read_of_get (d := ⟨two, defaultMode, 0⟩)
    exact (hget' _).trans (if_pos rfl)

/-- Where signatures are correct, signed documents are read back and no two are
hashed alike: a link is verified between neighbours only, and always. -/
def OneChain (A : AnchorCrates) (st : Store) : Prop :=
  ∀ (F : Path) (m : Machine) (mints : List Mint), Life A st F m mints →
    (mints.map Mint.out).Nodup → (∀ a ∈ mints, ¬ F <+: a.out) →
    (∀ a ∈ mints, ReadBack A a) →
    (∀ a ∈ mints, ∀ b ∈ mints, A.blake3 (a.bytes A) = A.blake3 (b.bytes A) →
      a.bytes A = b.bytes A) →
    ∀ (disk : Fs) (i j : Nat) (a b : Mint), mints[i]? = some a → mints[j]? = some b →
      disk.read a.out = .ok (a.bytes A) → disk.read b.out = .ok (b.bytes A) →
      (verifyLink A b.out a.out disk = .ok () ↔ j = i + 1)

/-- With an identity of this length the documents are too large to be read. -/
theorem not_oneChain_of_long {id : Bytes} (hutf : validUtf8 id = true) (htrim : trim id = id)
    (hlong : MAX_ANCHOR_BYTES < id.length) : ¬ OneChain bareCrates ⟨[str "w"]⟩ := by
  intro h
  obtain ⟨m, life⟩ := bareLine_life hutf htrim
  obtain ⟨hone, htwo⟩ := shelf_read ((bareMint (str "one") none id).bytes bareCrates)
    ((bareMint (str "two") (some ((bareMint (str "one") none id).link bareCrates)) id).bytes
      bareCrates)
  have hnodup : ((bareLine id).map Mint.out).Nodup := by
    show [[str "one"], [str "two"]].Nodup
    decide
  have houtside : ∀ a ∈ bareLine id, ¬ [str "w", FABRIC_DIR] <+: a.out := by
    intro a ha hinside
    simp only [bareLine, List.mem_cons, List.not_mem_nil, or_false] at ha
    have hlen := hinside.length_le
    rcases ha with rfl | rfl <;> simp [bareMint] at hlen
  have hverified := (h _ m _ life hnodup houtside bareLine_readBack bareLine_distinct
    _ 0 1 _ _ rfl rfl hone htwo).mpr rfl
  have hsmall := (readAnchorFile_eq_ok hone).mp (read_of_verifyLink hverified).1
  have hlen : id.length ≤ ((bareMint (str "one") none id).bytes bareCrates).length := by
    show id.length ≤ ((48 :: id) ++ _).length
    rw [List.length_append, List.length_cons]
    omega
  omega

/-- **No chain of documents that are too large.**  An identity of more than
four mebibytes is signed, and the link to its anchor is not verified. -/
theorem large_anchors_unlinked : SignsTruly bareCrates ∧ ¬ OneChain bareCrates ⟨[str "w"]⟩ := by
  refine ⟨bareCrates_signs, ?_⟩
  have hletter : ∀ b ∈ List.replicate (MAX_ANCHOR_BYTES + 1) (97 : UInt8), b = 97 := fun b hb =>
    List.eq_of_mem_replicate hb
  refine @not_oneChain_of_long (List.replicate (MAX_ANCHOR_BYTES + 1) 97) ?_ ?_ ?_
  · apply validUtf8_ascii
    intro b hb
    rw [hletter b hb]
    decide
  · apply trim_printing
    intro b hb
    rw [hletter b hb]
    decide
  · rw [List.length_replicate]
    exact Nat.lt_succ_self _

/-- The two anchors of a small fabric. -/
theorem verifyLink_neighbours :
    verifyLink bareCrates [str "two"] [str "one"]
      (shelf ((bareMint (str "one") none (str "fabric")).bytes bareCrates)
        ((bareMint (str "two") (some ((bareMint (str "one") none (str "fabric")).link bareCrates))
          (str "fabric")).bytes bareCrates)) = .ok () := by
  obtain ⟨m, life⟩ := @bareLine_life (str "fabric") (by decide) (by decide)
  obtain ⟨hone, htwo⟩ := shelf_read
    ((bareMint (str "one") none (str "fabric")).bytes bareCrates)
    ((bareMint (str "two") (some ((bareMint (str "one") none (str "fabric")).link bareCrates))
      (str "fabric")).bytes bareCrates)
  exact (verifyLink_iff bareCrates_signs life bareLine_readBack bareLine_distinct
    (i := 0) (j := 1) rfl rfl hone htwo).mpr ⟨rfl, by decide +kernel, by decide +kernel⟩

end Anchor

end Respawn
