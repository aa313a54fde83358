import Respawn.Keychain
import Respawn.Audit

/-!
# Anchors

An anchor is a signed checkpoint of a fabric that is kept outside of it.
`create` signs one, together with the hash of the anchor before it, which it
finds in the marker file `.respawn/last_anchor`; `verify_link` checks that one
anchor carries the hash of another.

The marker lies inside the directory the anchors are to protect.  Whoever may
write there can set it back to an older anchor, and the next one then skips
those in between.  What the links prove of a stored series they prove for the
runs in which the marker was never set back (`verifyLink_consecutive`).
-/

namespace Respawn

open ByteStr FileTree StateLogic

namespace Anchor

/-- What an anchor says. -/
structure AnchorPayload where
  kind : Bytes
  version : UInt32
  fabricId : Bytes
  auditLen : Nat
  auditTip : Bytes
  head : Option Bytes
  prevAnchor : Option Bytes
  ts : UInt64
  deriving DecidableEq

/-- A signed anchor. -/
structure AnchorFile where
  format : Bytes
  pubkey : Bytes
  payload : Bytes
  sig : Bytes
  deriving DecidableEq

end Anchor

/-- The functions of other crates on anchors: the JSON codecs, which bytes are
a verification key, and the verification of a signature under a key. -/
structure AnchorCrates extends Crates where
  anchorToJson : Anchor.AnchorFile → Bytes
  anchorOfJson : Bytes → Except Bytes Anchor.AnchorFile
  anchorPayloadToJson : Anchor.AnchorPayload → Bytes
  anchorPayloadOfJson : Bytes → Except Bytes Anchor.AnchorPayload
  isKey : Bytes → Bool
  verify : Bytes → Bytes → Bytes → Bool

namespace Anchor

variable (A : AnchorCrates) (st : Store)

def ANCHOR_VERSION : UInt32 := 1

/-- Where the hash of the newest anchor is kept. -/
def lastAnchorPath : Path := st.fabricDir ++ [str "last_anchor"]

/-! ## Where an anchor may lie -/

/-- `Path::canonicalize`. -/
def canonicalize (fs : Fs) (p : Path) : Except Errno Path :=
  match fs.resolve true p with
  | .ok q => if (fs.get q).isSome then .ok q else .error .notFound
  | .error e => .error e

/-- Resolve `.` and `..` in a path without looking at the disk. -/
def normalize (p : Path) : Path :=
  p.foldl (fun out c => if c = dot then out else if c = dotdot then out.dropLast else out ++ [c]) []

/-- `Path::file_name`. -/
def fileName (p : Path) : Option Name :=
  match p.getLast? with
  | some n => if n = dotdot then none else some n
  | none => none

/-- The deepest ancestor of a path that exists, and what lies below it; the
path is given deepest component first. -/
def deepest (fs : Fs) : Path → Path → Path × Path
  | [], tail => ([], tail)
  | n :: up, tail =>
      if (canonicalize fs (n :: up).reverse).isOk then ((n :: up).reverse, tail)
      else deepest fs up (n :: tail)

/-- The directory of `out`, as far as it exists by its physical path. -/
def resolvedParent (fs : Fs) (out : Path) : Path :=
  let parent := normalize out.dropLast
  let (ancestor, tail) := deepest fs parent.reverse []
  match canonicalize fs ancestor with
  | .ok base => base ++ tail
  | .error _ => parent

/-- An anchor inside the fabric it anchors is refused. -/
def checkOutside (out : Path) (fs : Fs) : Except Error Unit :=
  let candidate := normalize (resolvedParent fs out ++ (fileName out).toList)
  let fabric := match canonicalize fs st.fabricDir with
    | .ok q => q
    | .error _ => st.fabricDir
  if fabric <+: candidate then
    .error (.corrupt
      (str "anchor must live outside .respawn/ — inside the fabric it proves nothing"))
  else .ok ()

/-! ## Signing an anchor -/

/-- The marker: the hash of the newest anchor, if there is one to be read. -/
def marker (fs : Fs) : Option Bytes :=
  match fs.readToString (lastAnchorPath st) with
  | .ok s => some (trim s)
  | .error _ => none

/-- What `create` does before it looks at the marker: the key, its note for
the operator, and the end of the audit log. -/
def opening (out : Path) : Sys (Keychain.Secret × Option Bytes × Nat × Bytes) := do
  look (checkOutside st out)
  let (raw, _, note) ← Keychain.get st
  let (auditLen, auditTip) ← look (Audit.tip A.toCrates st)
  pure (raw, note, auditLen, auditTip)

/-- The anchor that is signed. -/
def compose (raw : Keychain.Secret) (auditLen : Nat) (auditTip : Bytes) :
    Sys (AnchorPayload × AnchorFile) := do
  let prevAnchor ← look fun fs => .ok (marker st fs)
  let id ← fabricId st
  let head ← look st.head
  let m ← get
  let payload : AnchorPayload :=
    { kind := str "respawn-anchor"
      version := ANCHOR_VERSION
      fabricId := id
      auditLen := auditLen
      auditTip := auditTip
      head := head.map hashHex
      prevAnchor := prevAnchor
      ts := UInt64.ofNat (unixSecs m.clock) }
  let text := A.anchorPayloadToJson payload
  pure (payload,
    { format := str "respawn-anchor/v1"
      pubkey := hexEncode (A.verifyingKey raw.val)
      payload := text
      sig := hexEncode (A.sign raw.val text) })

/-- What `create` reports. -/
structure CreateOutcome where
  auditLen : Nat
  note : Option Bytes
  deriving DecidableEq

/-- Sign a checkpoint of the fabric and write it to `out`. -/
def create (out : Path) : Sys CreateOutcome := do
  let (raw, note, auditLen, auditTip) ← opening A st out
  let (payload, file) ← compose A st raw auditLen auditTip
  let bytes := A.anchorToJson file
  atomicWrite out bytes
  atomicWrite (lastAnchorPath st) (hashHex (A.blake3 bytes))
  pure { auditLen := payload.auditLen, note := note }

/-! ## Checking anchors -/

def MAX_ANCHOR_BYTES : Nat := 4 * 1024 * 1024

/-- Read an anchor file, unless it is too large. -/
def readAnchorFile (path : Path) (fs : Fs) : Except Error Bytes :=
  match fs.metadata path with
  | .error e => .error (.io e)
  | .ok (.file d) =>
      if d.bytes.length > MAX_ANCHOR_BYTES then
        .error (.corrupt (str "anchor file exceeds " ++ decimal MAX_ANCHOR_BYTES ++ str " bytes"))
      else .ok d.bytes
  | .ok _ => .error (.io .isADirectory)

/-- The signature of an anchor must be one over its payload, under its key. -/
def checkSignature (file : AnchorFile) : Except Error Unit :=
  match hexDecode file.pubkey with
  | none => .error (.corrupt (str "anchor pubkey is not hex"))
  | some pk =>
      if pk.length ≠ 32 then .error (.corrupt (str "anchor pubkey is not 32 bytes"))
      else if ¬ A.isKey pk then
        .error (.corrupt (str "anchor pubkey is not a valid ed25519 key"))
      else match hexDecode file.sig with
        | none => .error (.corrupt (str "anchor sig is not hex"))
        | some sig =>
            if sig.length ≠ 64 then .error (.corrupt (str "anchor sig is not 64 bytes"))
            else if ¬ A.verify pk file.payload sig then
              .error (.corrupt (str "anchor signature invalid"))
            else .ok ()

/-- Parse an anchor and verify its signature. -/
def checkedAnchor (bytes : Bytes) : Except Error (AnchorFile × AnchorPayload) :=
  match A.anchorOfJson bytes with
  | .error e => .error (.corrupt (str "anchor file unparsable: " ++ e))
  | .ok file =>
      if file.format ≠ str "respawn-anchor/v1" then
        .error (.corrupt (str "unknown anchor format " ++ file.format))
      else match checkSignature A file with
        | .error e => .error e
        | .ok () => match A.anchorPayloadOfJson file.payload with
          | .error e => .error (.corrupt (str "anchor payload unparsable: " ++ e))
          | .ok payload =>
              if payload.kind ≠ str "respawn-anchor" ∨ payload.version ≠ ANCHOR_VERSION then
                .error (.corrupt (str "anchor payload version/type mismatch"))
              else .ok (file, payload)

/-- Verify that the anchor `cur` is chained to the anchor `prev`. -/
def verifyLink (cur prev : Path) (fs : Fs) : Except Error Unit := do
  let prevBytes ← readAnchorFile prev fs
  let _ ← checkedAnchor A prevBytes
  let curBytes ← readAnchorFile cur fs
  let (_, payload) ← checkedAnchor A curBytes
  match payload.prevAnchor with
  | some h =>
      if h = hashHex (A.blake3 prevBytes) then .ok ()
      else .error (.corrupt (str "anchor does not chain to the given predecessor"))
  | none =>
      .error (.corrupt (str "anchor has no chain link (first anchor, or pre-chain format)"))

/-! ## Runs against an adversary -/

/-- An anchor of a run: where it was written, the marker that was found, what
it says, and the anchor itself. -/
structure Mint where
  out : Path
  found : Option Bytes
  payload : AnchorPayload
  file : AnchorFile
  deriving DecidableEq

/-- The document of an anchor. -/
def Mint.bytes (a : Mint) : Bytes := A.anchorToJson a.file

/-- The anchor that `create` leaves at `out`, whether or not the marker can be
written after it. -/
def minted (out : Path) (m : Machine) : Option Mint :=
  match opening A st out m with
  | .error _ _ => none
  | .ok (raw, _, auditLen, auditTip) m₁ =>
      match compose A st raw auditLen auditTip m₁ with
      | .error _ _ => none
      | .ok (payload, file) m₂ =>
          if succeeded (atomicWrite out (A.anchorToJson file) m₂) then
            some ⟨out, marker st m₁.fs, payload, file⟩
          else none

/-- What an adversary may do who can write in the fabric directory but has not
the signing key; meanwhile time passes. -/
def Tampered (m m' : Machine) : Prop :=
  (∀ q, ¬ st.fabricDir <+: q ∨ q = Keychain.secretPath st → m'.fs.get q = m.fs.get q) ∧
    m'.keychain = m.keychain

/-- The runs of `create` among which the adversary acts, with the anchors that
were minted. -/
inductive Runs : Machine → List Mint → Prop
  | start (m : Machine) : Runs m []
  | tamper {m m' : Machine} {mints : List Mint} (run : Runs m mints) (h : Tampered st m m') :
      Runs m' mints
  | create {m : Machine} {mints : List Mint} (run : Runs m mints) (out : Path) :
      Runs (finalState (create A st out m)) (mints ++ (minted A st out m).toList)

/-- Whenever an anchor was minted, the marker named no anchor of the run but
the one minted just before. -/
def Unrewound (mints : List Mint) : Prop :=
  ∀ k a, mints[k]? = some a → ∀ b ∈ mints, a.found = some (hashHex (A.blake3 (b.bytes A))) →
    ∃ j, k = j + 1 ∧ (mints.map (Mint.bytes A))[j]? = some (b.bytes A)

/-- What was signed is read back from the document. -/
def ReadBack (a : Mint) : Prop :=
  A.anchorOfJson (a.bytes A) = .ok a.file ∧ A.anchorPayloadOfJson a.file.payload = .ok a.payload

variable {A st}

/-- An anchor carries the marker that was found. -/
theorem prevAnchor_of_compose {raw : Keychain.Secret} {n : Nat} {tip : Bytes} {m m' : Machine}
    {payload : AnchorPayload} {file : AnchorFile}
    (h : compose A st raw n tip m = .ok (payload, file) m') :
    payload.prevAnchor = marker st m.fs := by
  unfold compose at h
  rw [bind_apply, look_get] at h
  obtain ⟨id, m₁, _, h⟩ := bind_eq_ok.mp h
  obtain ⟨head, m₂, _, h⟩ := bind_eq_ok.mp h
  obtain ⟨_, m₃, _, h⟩ := bind_eq_ok.mp h
  cases h
  rfl

/-- An anchor points back to the one its marker names. -/
theorem prevAnchor_of_minted {out : Path} {m : Machine} {a : Mint}
    (h : minted A st out m = some a) : a.payload.prevAnchor = a.found := by
  unfold minted at h
  split at h
  · cases h
  · split at h
    · cases h
    case _ hcompose =>
      split at h
      · cases h
        exact prevAnchor_of_compose hcompose
      · cases h

/-- A `create` that succeeds has minted an anchor. -/
theorem minted_of_create {out : Path} {m m' : Machine} {o : CreateOutcome}
    (h : create A st out m = .ok o m') : ∃ a, minted A st out m = some a := by
  unfold create at h
  obtain ⟨⟨raw, note, n, tip⟩, m₁, hopening, h⟩ := bind_eq_ok.mp h
  obtain ⟨⟨payload, file⟩, m₂, hcompose, h⟩ := bind_eq_ok.mp h
  obtain ⟨_, m₃, hwrite, _⟩ := bind_eq_ok.mp h
  refine ⟨⟨out, marker st m₁.fs, payload, file⟩, ?_⟩
  unfold minted
  rw [hopening]
  simp only [hcompose, hwrite]
  rfl

/-- Every anchor of a run carries the marker that was found. -/
theorem Runs.prevAnchor {m : Machine} {mints : List Mint} (run : Runs A st m mints) :
    ∀ a ∈ mints, a.payload.prevAnchor = a.found := by
  induction run with
  | start m =>
      intro a ha
      exact absurd ha List.not_mem_nil
  | tamper run h ih => exact ih
  | create run out ih =>
      intro a ha
      rcases List.mem_append.mp ha with hold | hnew
      · exact ih a hold
      · exact prevAnchor_of_minted (Option.mem_toList.mp hnew)

/-! ## What a link proves -/

/-- An anchor that was checked is read. -/
theorem checkedAnchor_ok {bytes : Bytes} {file : AnchorFile} {payload : AnchorPayload}
    (h : checkedAnchor A bytes = .ok (file, payload)) :
    A.anchorOfJson bytes = .ok file ∧ A.anchorPayloadOfJson file.payload = .ok payload := by
  unfold checkedAnchor at h
  split at h
  · cases h
  case _ file' hfile =>
    split at h
    · cases h
    · split at h
      · cases h
      · split at h
        · cases h
        case _ payload' hpayload =>
          split at h
          · cases h
          · cases h
            exact ⟨hfile, hpayload⟩

/-- An anchor file that is read is a file. -/
theorem read_of_readAnchorFile {fs : Fs} {p : Path} {bytes : Bytes}
    (h : readAnchorFile p fs = .ok bytes) : fs.read p = .ok bytes := by
  unfold readAnchorFile at h
  unfold Fs.read
  split at h
  · cases h
  case _ d hd =>
    rw [hd]
    split at h <;> cases h
    rfl
  · cases h

/-- A link that is verified is carried by the later anchor. -/
theorem verifyLink_ok {fs : Fs} {cur prev : Path} (h : verifyLink A cur prev fs = .ok ()) :
    ∃ prevBytes curBytes file payload, fs.read prev = .ok prevBytes ∧
      fs.read cur = .ok curBytes ∧ A.anchorOfJson curBytes = .ok file ∧
        A.anchorPayloadOfJson file.payload = .ok payload ∧
          payload.prevAnchor = some (hashHex (A.blake3 prevBytes)) := by
  unfold verifyLink at h
  cases hprev : readAnchorFile prev fs with
  | error e =>
      rw [hprev] at h
      cases h
  | ok prevBytes =>
      rw [hprev] at h
      cases hchecked : checkedAnchor A prevBytes with
      | error e =>
          simp only [bind, Except.bind, hchecked] at h
          cases h
      | ok checked =>
          cases hcur : readAnchorFile cur fs with
          | error e =>
              simp only [bind, Except.bind, hchecked, hcur] at h
              cases h
          | ok curBytes =>
              cases hchecked' : checkedAnchor A curBytes with
              | error e =>
                  simp only [bind, Except.bind, hchecked, hcur, hchecked'] at h
                  cases h
              | ok checked' =>
                  obtain ⟨file, payload⟩ := checked'
                  simp only [bind, Except.bind, hchecked, hcur, hchecked'] at h
                  obtain ⟨hfile, hpayload⟩ := checkedAnchor_ok hchecked'
                  refine ⟨prevBytes, curBytes, file, payload, read_of_readAnchorFile hprev,
                    read_of_readAnchorFile hcur, hfile, hpayload, ?_⟩
                  split at h
                  case _ h' hlink =>
                    split at h
                    case _ heq => rw [hlink, heq]
                    · cases h
                  · cases h

/-- **A verified series skips nothing**, unless the marker was set back: let
every anchor of a run have been minted over a marker that named no anchor of
the run but the one just before.  Anchors of the run that are stored under the
paths of `series`, each verified to be linked to the one before it, are then
consecutive. -/
theorem verifyLink_consecutive {m : Machine} {mints : List Mint} (run : Runs A st m mints)
    (hread : ∀ a ∈ mints, ReadBack A a) (hmarker : Unrewound A mints) {disk : Fs}
    {series : List Path} {docs : List Bytes}
    (hstored : List.Forall₂ (fun p b => disk.read p = .ok b) series docs)
    (hgenuine : ∀ b ∈ docs, ∃ a ∈ mints, a.bytes A = b)
    (hlinked : series.IsChain fun prev cur => verifyLink A cur prev disk = .ok ()) :
    docs <:+: mints.map (Mint.bytes A) := by
  -- the document `c` carries the hash of the document `b`
  let R : Bytes → Bytes → Prop := fun b c => ∃ file payload, A.anchorOfJson c = .ok file ∧
    A.anchorPayloadOfJson file.payload = .ok payload ∧
      payload.prevAnchor = some (hashHex (A.blake3 b))
  have hR : ∀ k b c, (mints.map (Mint.bytes A))[k]? = some c → b ∈ mints.map (Mint.bytes A) →
      R b c → ∃ j, k = j + 1 ∧ (mints.map (Mint.bytes A))[j]? = some b := by
    intro k b c hk hb hlink
    obtain ⟨a, ha, rfl⟩ : ∃ a, mints[k]? = some a ∧ a.bytes A = c := by simpa using hk
    obtain ⟨b, hbmem, rfl⟩ := List.mem_map.mp hb
    obtain ⟨file, payload, hfile, hpayload, hprev⟩ := hlink
    obtain ⟨hfile', hpayload'⟩ := hread a (List.mem_of_getElem? ha)
    have hsame : file = a.file := Except.ok.inj (hfile.symm.trans hfile')
    subst hsame
    have hsame : payload = a.payload := Except.ok.inj (hpayload.symm.trans hpayload')
    subst hsame
    apply hmarker k a ha b hbmem
    rw [← run.prevAnchor a (List.mem_of_getElem? ha)]
    exact hprev
  apply HashChain.infix_of_isChain hR
  · intro b hb
    obtain ⟨a, ha, hab⟩ := hgenuine b hb
    exact List.mem_map.mpr ⟨a, ha, hab⟩
  · -- the links between the paths are links between what is stored there
    clear hgenuine
    induction hstored with
    | nil => exact .nil
    | @cons p b ps bs hp hrest ih =>
        cases hrest with
        | nil => exact .singleton b
        | @cons q c ps bs hq hrest =>
            obtain ⟨hlink, htail⟩ := List.isChain_cons_cons.mp hlinked
            obtain ⟨b', c', file, payload, hb', hc', hfile, hpayload, hprev⟩ :=
              verifyLink_ok hlink
            have hb : b' = b := Except.ok.inj (hb'.symm.trans hp)
            have hc : c' = c := Except.ok.inj (hc'.symm.trans hq)
            subst hb hc
            exact List.isChain_cons_cons.mpr ⟨⟨file, payload, hfile, hpayload, hprev⟩,
              ih htail⟩

/-! ## A small run -/

/-- The seed of the signing key. -/
def anchorSeed : Bytes := List.replicate 32 7

/-- A signature of 64 bytes. -/
def padSignature (key message : Bytes) : Bytes := (padHash key).val ++ (padHash message).val

/-- The anchor of an empty fabric that is signed at this second. -/
def payloadAt (ts : UInt64) (prev : Option Bytes) : AnchorPayload :=
  { kind := str "respawn-anchor"
    version := ANCHOR_VERSION
    fabricId := str "fabric"
    auditLen := 0
    auditTip := []
    head := none
    prevAnchor := prev
    ts := ts }

def anchorAt (ts : UInt64) : AnchorFile :=
  { format := str "respawn-anchor/v1"
    pubkey := hexEncode anchorSeed
    payload := decimal ts.toNat
    sig := hexEncode (padSignature anchorSeed (decimal ts.toNat)) }

/-- What the marker holds after the anchor of this second. -/
def markerAt (ts : UInt64) : Bytes := hashHex (padHash (str "anchor " ++ decimal ts.toNat))

/-- Anchors of the seconds one, two and three, of which the later two are both
linked to the first. -/
def anchorCrates : AnchorCrates :=
  { smallCrates [] [] [] with
    verifyingKey := id
    sign := padSignature
    anchorToJson := fun f => str "anchor " ++ f.payload
    anchorOfJson := tableDecode [(str "anchor 1", anchorAt 1), (str "anchor 2", anchorAt 2),
      (str "anchor 3", anchorAt 3)]
    anchorPayloadToJson := fun p => decimal p.ts.toNat
    anchorPayloadOfJson := tableDecode [(str "1", payloadAt 1 none),
      (str "2", payloadAt 2 (some (markerAt 1))), (str "3", payloadAt 3 (some (markerAt 1)))]
    isKey := fun _ => true
    verify := fun pk message sig => sig = padSignature pk message }

/-- An empty fabric with a signing key. -/
def anchorFabric : Fs :=
  Fs.build (Store.fabricNodes ⟨[str "w"]⟩ [] ++
    [(fabricIdPath ⟨[str "w"]⟩, Store.plainFile (str "fabric")),
     (Keychain.secretPath ⟨[str "w"]⟩, Store.plainFile (hexEncode anchorSeed))])

/-- The machine some seconds after 1970. -/
def atSecond (n : Int) (m : Machine) : Machine := { m with clock := n * 1000000000 }

/-- Overwrite the marker. -/
def setMarker (text : Bytes) (m : Machine) : Machine :=
  { m with fs := m.fs.modifyFile (lastAnchorPath ⟨[str "w"]⟩) fun d => { d with bytes := text } }

theorem tampered_atSecond (n : Int) (m : Machine) : Tampered ⟨[str "w"]⟩ m (atSecond n m) :=
  ⟨fun _ _ => rfl, rfl⟩

/-- Whoever sets the marker leaves the rest. -/
theorem tampered_setMarker (text : Bytes) (m : Machine) :
    Tampered ⟨[str "w"]⟩ m (setMarker text m) := by
  refine ⟨?_, rfl⟩
  intro q hq
  have hne : q ≠ lastAnchorPath ⟨[str "w"]⟩ := by
    intro heq
    rcases hq with hout | hsecret
    · exact hout (heq ▸ List.prefix_append _ _)
    · exact absurd (heq.symm.trans hsecret) (by decide)
  exact Fs.get_modifyFile_of_ne hne _

/-- An anchor of the run goes to the root of the disk. -/
abbrev mint (name : Name) (m : Machine) : Machine :=
  finalState (create anchorCrates ⟨[str "w"]⟩ [name] m)

/-- Two anchors, a second apart. -/
def mintedTwice : Machine :=
  mint (str "two") (atSecond 2 (mint (str "one") (atSecond 1 (Machine.start anchorFabric))))

def firstMint : Mint := ⟨[str "one"], none, payloadAt 1 none, anchorAt 1⟩

def secondMint : Mint :=
  ⟨[str "two"], some (markerAt 1), payloadAt 2 (some (markerAt 1)), anchorAt 2⟩

def thirdMint : Mint :=
  ⟨[str "three"], some (markerAt 1), payloadAt 3 (some (markerAt 1)), anchorAt 3⟩

/-- An anchor of the run is minted. -/
theorem runs_mint {m : Machine} {mints : List Mint} {a : Mint} {name : Name}
    (run : Runs anchorCrates ⟨[str "w"]⟩ m mints)
    (hminted : minted anchorCrates ⟨[str "w"]⟩ [name] m = some a) :
    Runs anchorCrates ⟨[str "w"]⟩ (mint name m) (mints ++ [a]) := by
  have hcreate := Runs.create run [name]
  rw [hminted] at hcreate
  exact hcreate

/-- Two anchors are minted one after the other. -/
theorem mintedTwice_runs : Runs anchorCrates ⟨[str "w"]⟩ mintedTwice [firstMint, secondMint] := by
  have hstart : Runs anchorCrates ⟨[str "w"]⟩ (Machine.start anchorFabric) [] := .start _
  have hone : Runs anchorCrates ⟨[str "w"]⟩
      (mint (str "one") (atSecond 1 (Machine.start anchorFabric))) [firstMint] :=
    runs_mint (.tamper hstart (tampered_atSecond 1 _)) (by decide +kernel)
  have htwo : minted anchorCrates ⟨[str "w"]⟩ [str "two"]
      (atSecond 2 (mint (str "one") (atSecond 1 (Machine.start anchorFabric)))) =
        some secondMint := by decide +kernel
  exact runs_mint (.tamper hone (tampered_atSecond 2 _)) htwo

/-- They read back. -/
theorem readBack_small {a : Mint} (h : a ∈ [firstMint, secondMint, thirdMint]) :
    ReadBack anchorCrates a := by
  simp only [List.mem_cons, List.not_mem_nil, or_false] at h
  rcases h with rfl | rfl | rfl
  · exact ⟨by decide +kernel, by decide +kernel⟩
  · exact ⟨by decide +kernel, by decide +kernel⟩
  · exact ⟨by decide +kernel, by decide +kernel⟩

/-- The marker was not turned back. -/
theorem mintedTwice_unrewound : Unrewound anchorCrates [firstMint, secondMint] := by
  intro k a hk b hb hfound
  obtain _ | _ | k := k
  · cases hk
    cases hfound
  · cases hk
    have hb : b = firstMint ∨ b = secondMint := by simpa using hb
    rcases hb with rfl | rfl
    · exact ⟨0, rfl, rfl⟩
    · exact absurd hfound (by decide +kernel)
  · cases hk

/-- The anchors of two seconds, where they were written. -/
theorem verifyLink_consecutive_twice :
    [str "anchor 1", str "anchor 2"] <:+:
      [firstMint, secondMint].map (Mint.bytes anchorCrates) := by
  have hstored : List.Forall₂ (fun p b => mintedTwice.fs.read p = .ok b)
      [[str "one"], [str "two"]] [str "anchor 1", str "anchor 2"] :=
    .cons (by decide +kernel) (.cons (by decide +kernel) .nil)
  have hread : ∀ a ∈ [firstMint, secondMint], ReadBack anchorCrates a := by
    intro a ha
    apply readBack_small
    simp only [List.mem_cons, List.not_mem_nil, or_false] at ha ⊢
    exact ha.imp_right Or.inl
  exact verifyLink_consecutive mintedTwice_runs hread mintedTwice_unrewound hstored
    (by decide +kernel) (List.isChain_cons_cons.mpr ⟨by decide +kernel, .singleton _⟩)

/-- Where signed documents are read back and no two are hashed alike, stored
anchors of a run that wrote them to different paths are consecutive when each
is verified to be linked to the one before it. -/
def GapsShow (A : AnchorCrates) (st : Store) : Prop :=
  ∀ (m : Machine) (mints : List Mint) (disk : Fs) (series : List Path) (docs : List Bytes),
    Runs A st m mints → (mints.map Mint.out).Nodup →
    (∀ a ∈ mints, ReadBack A a) →
    (∀ a ∈ mints, ∀ b ∈ mints, A.blake3 (a.bytes A) = A.blake3 (b.bytes A) →
      a.bytes A = b.bytes A) →
    List.Forall₂ (fun p b => disk.read p = .ok b) series docs →
    (∀ b ∈ docs, ∃ a ∈ mints, a.bytes A = b) →
    (series.IsChain fun prev cur => verifyLink A cur prev disk = .ok ()) →
    docs <:+: mints.map (Mint.bytes A)

/-- Before the third anchor the marker is set back to the first. -/
theorem marker_rewound : ¬ GapsShow anchorCrates ⟨[str "w"]⟩ := by
  intro h
  let rewound := setMarker (markerAt 1) (atSecond 3 mintedTwice)
  have htampered := Runs.tamper (.tamper mintedTwice_runs (tampered_atSecond 3 _))
    (tampered_setMarker (markerAt 1) _)
  have run : Runs anchorCrates ⟨[str "w"]⟩ (mint (str "three") rewound)
      [firstMint, secondMint, thirdMint] := runs_mint htampered (by decide +kernel)
  have hgap := h _ _ (mint (str "three") rewound).fs [[str "one"], [str "three"]]
    [str "anchor 1", str "anchor 3"] run (by decide +kernel) (fun a => readBack_small)
    (by decide +kernel) (.cons (by decide +kernel) (.cons (by decide +kernel) .nil))
    (by decide +kernel)
    (List.isChain_cons_cons.mpr ⟨by decide +kernel, .singleton _⟩)
  revert hgap
  decide +kernel

end Anchor

end Respawn
