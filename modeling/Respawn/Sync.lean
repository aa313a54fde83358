import Mathlib.Data.List.Dedup
import Respawn.Capture

/-!
# Sync

`pull` asks a peer for its HEAD, walks the parent chain of manifests until it
meets one that is already here, and then fetches the chunks it lacks.  A peer
is known by its answers: a `Peer` maps the requests sent so far to its reply,
or to nothing once the connection is gone, so it may answer anything, stop
anywhere, and depend on everything it was asked.  `respondFrame` is what an
honest peer answers.

Transport, handshake and timeouts are outside the model: a frame arrives as it
was sent or not at all.
-/

namespace Respawn

open ByteStr FileTree StateLogic

namespace Sync

variable (X : Crates) (st : Store)

def OP_GET_HEAD : UInt8 := 0x01

def OP_GET_MANIFEST : UInt8 := 0x02

def OP_HAVE : UInt8 := 0x03

def OP_GET_OBJECT : UInt8 := 0x04

def MAX_MANIFESTS_PER_PULL : Nat := 100000

def MAX_OBJECTS_PER_PULL : Nat := 8000000

/-- Hashes per HAVE request. -/
def HAVE_BATCH : Nat := 500000

def MAX_FRAME : Nat := 64 * 1024 * 1024

/-! ## Frames -/

/-- A number as `k` bytes, the lowest first. -/
def leBytes : Nat → Nat → Bytes
  | 0, _ => []
  | k + 1, n => UInt8.ofNat (n % 256) :: leBytes k (n / 256)

/-- The number that little-endian bytes denote. -/
def leNat : Bytes → Nat
  | [] => 0
  | b :: rest => b.toNat + 256 * leNat rest

/-- A number that fits is read back from its bytes. -/
theorem leNat_leBytes {k n : Nat} (h : n < 256 ^ k) : leNat (leBytes k n) = n := by
  induction k generalizing n with
  | zero =>
      have hn : n = 0 := by simpa using h
      simp [leBytes, leNat, hn]
  | succ k ih =>
      have hdiv : n / 256 < 256 ^ k := by
        rw [Nat.pow_succ] at h
        omega
      have hlow : (UInt8.ofNat (n % 256)).toNat = n % 256 := by
        rw [UInt8.toNat_ofNat']
        omega
      rw [leBytes, leNat, ih hdiv, hlow]
      omega

@[simp] theorem leBytes_length (k n : Nat) : (leBytes k n).length = k := by
  induction k generalizing n with
  | zero => rfl
  | succ k ih => simp [leBytes, ih]

def readU64 (frame : Bytes) : Except Error Nat :=
  if frame.length < 8 then .error (.sync (str "short frame")) else .ok (leNat (frame.take 8))

/-- The bytes a length-prefixed answer carries; none when the length is zero. -/
def framePayload (frame : Bytes) : Except Error Bytes :=
  match readU64 frame with
  | .error e => .error e
  | .ok len =>
      if len = 0 then .ok []
      else if len > frame.length - 8 then .error (.sync (str "truncated frame payload"))
      else .ok ((frame.drop 8).take len)

/-- An answer that carries these bytes. -/
def payloadFrame (data : Bytes) : Bytes := leBytes 8 data.length ++ data

/-- A frame is read back from what was sent. -/
theorem framePayload_payloadFrame {data : Bytes} (h : data.length < 2 ^ 64) :
    framePayload (payloadFrame data) = .ok data := by
  have hlen : leNat (leBytes 8 data.length) = data.length :=
    leNat_leBytes (by simpa using h)
  have htake : (payloadFrame data).take 8 = leBytes 8 data.length :=
    List.take_left' (leBytes_length 8 _)
  have hdrop : (payloadFrame data).drop 8 = data := List.drop_left' (leBytes_length 8 _)
  have hsize : (payloadFrame data).length = 8 + data.length := by simp [payloadFrame]
  have hread : readU64 (payloadFrame data) = .ok data.length := by
    unfold readU64
    rw [if_neg (by omega), htake, hlen]
  unfold framePayload
  rw [hread, hdrop]
  simp only [hsize]
  by_cases hzero : data.length = 0
  · rw [if_pos hzero, List.length_eq_zero_iff.mp hzero]
  · rw [if_neg hzero, if_neg (by omega), List.take_length]

/-! ## The answering side -/

/-- The hashes of a HAVE request, cut from its body. -/
def cutHashes : Nat → Bytes → List Hash
  | 0, _ => []
  | n + 1, body =>
      if h : (body.take 32).length = 32 then ⟨body.take 32, h⟩ :: cutHashes n (body.drop 32) else []

/-- A batch of hashes is cut as it was joined. -/
theorem cutHashes_flatMap (batch : List Hash) :
    cutHashes batch.length (batch.flatMap Subtype.val) = batch := by
  induction batch with
  | nil => rfl
  | cons h rest ih =>
      have htake : ((h :: rest).flatMap Subtype.val).take 32 = h.val := List.take_left' h.2
      have hdrop : ((h :: rest).flatMap Subtype.val).drop 32 = rest.flatMap Subtype.val :=
        List.drop_left' h.2
      simp only [List.length_cons, cutHashes, htake, h.2, dif_pos, hdrop, ih]

/-- A request frame in, response bytes out. -/
def respondFrame (fs : Fs) (frame : Bytes) : Except Error Bytes :=
  match frame with
  | [] => .error (.sync (str "unknown opcode"))
  | op :: body =>
      if op = OP_GET_HEAD then
        match st.head fs with
        | .error e => .error e
        | .ok none => .ok [0]
        | .ok (some h) => .ok (1 :: h.val)
      else if hlen : op = OP_GET_MANIFEST ∧ body.length = 32 then
        if st.hasManifest fs ⟨body, hlen.2⟩ then
          match st.getManifestBytes fs ⟨body, hlen.2⟩ with
          | .error e => .error e
          | .ok data => .ok (payloadFrame data)
        else .ok (payloadFrame [])
      else if op = OP_HAVE ∧ body.length ≥ 4 then
        let n := leNat (body.take 4)
        if body.length ≠ 4 + n * 32 then .error (.sync (str "malformed HAVE"))
        else .ok ((cutHashes n (body.drop 4)).map fun h => if st.hasObject fs h then 1 else 0)
      else if hlen : op = OP_GET_OBJECT ∧ body.length = 32 then
        match st.getObject X fs ⟨body, hlen.2⟩ with
        | .error _ => .ok (payloadFrame [])
        | .ok data => .ok (payloadFrame data)
      else .error (.sync (str "unknown opcode"))

/-! ## The asking side -/

/-- A peer: its answer to the last of the requests sent so far, or none when
the connection is gone. -/
abbrev Peer := List Bytes → Option Bytes

/-- Send a request after those in `sent` and read the answer. -/
def exchange (peer : Peer) (sent : List Bytes) (req : Bytes) : Except Error Bytes :=
  match peer (sent ++ [req]) with
  | none => .error (.io .other)
  | some resp =>
      if resp.length > MAX_FRAME then .error (.sync (str "frame too large")) else .ok resp

/-- What `pull` reports. -/
structure PullReport where
  remoteHead : Option Hash
  manifestsFetched : Nat
  objectsFetched : Nat
  objectsSkipped : Nat
  deriving DecidableEq

/-- What the walk has done: requests sent, chunks needed, manifests fetched. -/
structure Walked where
  sent : List Bytes
  needed : List Hash
  fetched : Nat

def manifestRequest (h : Hash) : Bytes := OP_GET_MANIFEST :: h.val

/-- Ask for the manifest `cur` and decode what comes, which is stored before it
is decoded. -/
def fetchManifest (peer : Peer) (sent : List Bytes) (cur : Hash) : Sys Manifest := do
  let resp ← look fun _ => exchange peer sent (manifestRequest cur)
  let data ← look fun _ => framePayload resp
  if data = [] then throw (.sync (str "remote missing manifest " ++ short cur))
  else do
    st.putManifestAs X cur data
    look fun _ => Manifest.decode X data

/-- The walk along the remote manifest chain until a manifest that is here.
The first argument is what the cap on the manifests of a pull still allows. -/
def walk (peer : Peer) : Nat → List Hash → Walked → Hash → Sys Walked
  | 0, visited, w, cur => do
      let present ← look fun fs => .ok (st.hasManifest fs cur)
      if present then pure w
      else if cur ∈ visited then throw (.sync (str "manifest chain cycle"))
      else throw (.sync (str "manifest chain too long"))
  | fuel + 1, visited, w, cur => do
      let present ← look fun fs => .ok (st.hasManifest fs cur)
      if present then pure w
      else if cur ∈ visited then throw (.sync (str "manifest chain cycle"))
      else do
        let m ← fetchManifest X st peer w.sent cur
        let needed := w.needed ++ m.files.flatMap FileEntry.chunks
        if needed.length > MAX_OBJECTS_PER_PULL then
          throw (.sync (str "pull exceeds object cap"))
        else
          let w' : Walked := { sent := w.sent ++ [manifestRequest cur]
                               needed := needed
                               fetched := w.fetched + 1 }
          match m.parent with
          | none => pure w'
          | some p => walk peer fuel (cur :: visited) w' p

/-- What the fetching of objects has done: requests sent, objects fetched and
skipped. -/
structure Fetched where
  sent : List Bytes
  fetched : Nat
  skipped : Nat

/-- Fetch one object that the peer has and this store has not. -/
def fetchObject (peer : Peer) (f : Fetched) (h : Hash) (offered : UInt8) : Sys Fetched := do
  let present ← look fun fs => .ok (st.hasObject fs h)
  if offered = 1 ∧ ¬ present then do
    let req := OP_GET_OBJECT :: h.val
    let resp ← look fun _ => exchange peer f.sent req
    let data ← look fun _ => framePayload resp
    if data = [] then throw (.sync (str "remote missing object " ++ short h))
    else do
      st.putObjectAs X h data
      pure { f with sent := f.sent ++ [req], fetched := f.fetched + 1 }
  else pure { f with skipped := f.skipped + 1 }

/-- The inner loop: the hashes of a batch with the peer's answers. -/
def fetchObjects (peer : Peer) : List (Hash × UInt8) → Fetched → Sys Fetched
  | [], f => pure f
  | (h, offered) :: rest, f => do
      let f' ← fetchObject X st peer f h offered
      fetchObjects peer rest f'

def haveRequest (batch : List Hash) : Bytes :=
  OP_HAVE :: leBytes 4 batch.length ++ batch.flatMap Subtype.val

/-- The outer loop: one HAVE exchange a batch. -/
def fetchBatches (peer : Peer) : List (List Hash) → Fetched → Sys Fetched
  | [], f => pure f
  | batch :: rest, f => do
      let offered ← look fun _ => exchange peer f.sent (haveRequest batch)
      if offered.length ≠ batch.length then throw (.sync (str "HAVE response truncated"))
      else do
        let f' ← fetchObjects X st peer (batch.zip offered)
          { f with sent := f.sent ++ [haveRequest batch] }
        fetchBatches peer rest f'

/-- `chunks(n)`: pieces of `n` elements, the last one shorter; `k` bounds their
number. -/
def batches {α : Type} (n : Nat) : Nat → List α → List (List α)
  | 0, _ => []
  | _ + 1, [] => []
  | k + 1, a :: rest => (a :: rest).take n :: batches n k ((a :: rest).drop n)

/-- Every element is in one of enough pieces. -/
theorem mem_batches {α : Type} {n k : Nat} {l : List α} {a : α} (hn : 0 < n) (hk : l.length ≤ k)
    (ha : a ∈ l) : ∃ b ∈ batches n k l, a ∈ b := by
  induction k generalizing l with
  | zero =>
      rw [List.length_eq_zero_iff.mp (Nat.le_zero.mp hk)] at ha
      cases ha
  | succ k ih =>
      cases l with
      | nil => cases ha
      | cons c rest =>
          unfold batches
          rw [← List.take_append_drop n (c :: rest)] at ha
          rcases List.mem_append.mp ha with hfirst | hlater
          · exact ⟨_, List.mem_cons_self, hfirst⟩
          · have hlen : ((c :: rest).drop n).length ≤ k := by
              rw [List.length_drop]
              simp only [List.length_cons] at hk ⊢
              omega
            obtain ⟨b, hb, hab⟩ := ih hlen hlater
            exact ⟨b, List.mem_cons_of_mem _ hb, hab⟩

/-- A piece has at most `n` elements. -/
theorem length_of_mem_batches {α : Type} {n k : Nat} {l b : List α} (hb : b ∈ batches n k l) :
    b.length ≤ n := by
  induction k generalizing l with
  | zero => cases hb
  | succ k ih =>
      cases l with
      | nil => cases hb
      | cons c rest =>
          unfold batches at hb
          rcases List.mem_cons.mp hb with rfl | hlater
          · exact List.length_take_le _ _
          · exact ih hlater

/-- The pieces hold nothing else. -/
theorem mem_of_mem_batches {α : Type} {n k : Nat} {l b : List α} {a : α} (hb : b ∈ batches n k l)
    (ha : a ∈ b) : a ∈ l := by
  induction k generalizing l with
  | zero => cases hb
  | succ k ih =>
      cases l with
      | nil => cases hb
      | cons c rest =>
          unfold batches at hb
          rcases List.mem_cons.mp hb with rfl | hlater
          · exact List.mem_of_mem_take ha
          · exact List.mem_of_mem_drop (ih hlater)

/-- Sorted, without repetitions. -/
def sortDedup (needed : List Hash) : List Hash :=
  (needed.insertionSort fun a b => a.val ≤ b.val).dedup

/-- Peer addresses become file names: other characters than letters, digits,
`.` and `-` are replaced. -/
def sanitize (addr : Bytes) : Bytes :=
  (addr.filter fun b => !isCont b).map fun b =>
    if (48 ≤ b ∧ b ≤ 57) ∨ (65 ≤ b ∧ b ≤ 90) ∨ (97 ≤ b ∧ b ≤ 122) ∨ b = 46 ∨ b = 45 then b
    else 95

theorem mem_sortDedup {needed : List Hash} {c : Hash} : c ∈ sortDedup needed ↔ c ∈ needed := by
  rw [sortDedup, List.mem_dedup, List.mem_insertionSort]

def remotesDir : Path := st.fabricDir ++ [str "remotes"]

/-- Fetch the chain of `remoteHead` and its objects. -/
def pullHead (addr : Bytes) (peer : Peer) (remoteHead : Hash) : Sys PullReport := do
  let w ← walk X st peer MAX_MANIFESTS_PER_PULL [] ⟨[[OP_GET_HEAD]], [], 0⟩ remoteHead
  let needed := sortDedup w.needed
  let f ← fetchBatches X st peer (batches HAVE_BATCH needed.length needed) ⟨w.sent, 0, 0⟩
  io (createDirAll (remotesDir st))
  io (writeFile (remotesDir st ++ [sanitize addr]) (hashHex remoteHead))
  pure { remoteHead := some remoteHead
         manifestsFetched := w.fetched
         objectsFetched := f.fetched
         objectsSkipped := f.skipped }

/-- Pull the remote's HEAD chain and all missing objects into the local store.
An address without a port cannot be connected to. -/
def pull (addr : Bytes) (peer : Peer) : Sys PullReport :=
  if 58 ∉ addr then
    throw (.sync (str "connect " ++ addr ++ str ": invalid socket address"))
  else do
    let resp ← look fun _ => exchange peer [] [OP_GET_HEAD]
    if h : resp.length = 33 ∧ resp.head? = some 1 then
      pullHead X st addr peer ⟨resp.tail, by rw [List.length_tail, h.1]⟩
    else if resp.head? = some 0 then pure ⟨none, 0, 0, 0⟩
    else throw (.sync (str "malformed HEAD response"))

/-- The address of a peer becomes a proper file name. -/
theorem validName_sanitize {addr : Bytes} (h : 58 ∈ addr) : ValidName (sanitize addr) := by
  have hmark : (95 : UInt8) ∈ sanitize addr :=
    List.mem_map.mpr ⟨58, List.mem_filter.mpr ⟨h, by decide⟩, by decide⟩
  have hclean : ∀ b ∈ sanitize addr, b ≠ slash ∧ b ≠ 0 := by
    intro b hb
    obtain ⟨c, _, hc⟩ := List.mem_map.mp hb
    split at hc
    case isTrue hkept =>
      subst hc
      constructor
      · intro heq
        exact absurd (heq ▸ hkept) (by decide)
      · intro heq
        exact absurd (heq ▸ hkept) (by decide)
    case isFalse =>
      rw [← hc]
      decide
  refine ⟨?_, ?_, ?_, fun hs => (hclean _ hs).1 rfl, fun hz => (hclean _ hz).2 rfl⟩
  · intro hnil
    rw [hnil] at hmark
    simp at hmark
  · intro hdot
    rw [hdot] at hmark
    exact absurd hmark (by decide)
  · intro hdotdot
    rw [hdotdot] at hmark
    exact absurd hmark (by decide)

end Sync

end Respawn
