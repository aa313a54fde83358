import Respawn.Fetch

/-!
# Requests and answers

`respond_frame` builds its answers with offsets and length fields that `pull`
takes apart again elsewhere.  The first half of this file writes what `pull`
does with an answer as one function for each kind of request, and shows that a
request answered and decoded is a look at the answering store, errors of its
disk included.

The second half is about the offsets: `readU64`, `framePayload` and
`respondFrame` leave out that an index may be out of range and that a sum may
wrap.  `Checked` keeps both: its functions are the source's, with every slice,
every array conversion and every sum and product of `usize` made as it stands
there.  They come to an end for every frame, with the outcome of the others.

* `answers_decode` — the four kinds of request, and no frame that faults.
-/

namespace Respawn

open ByteStr FileTree StateLogic

namespace Sync

variable (X : Crates) (st : Store)

def headRequest : Bytes := [OP_GET_HEAD]

/-! ## What `pull` does with an answer -/

theorem length_tail_of_head {resp : Bytes} (h : resp.length = 33 ∧ resp.head? = some 1) :
    resp.tail.length = 32 := by
  rw [List.length_tail, h.1]

def decodeHead (resp : Bytes) : Except Error (Option Hash) :=
  if h : resp.length = 33 ∧ resp.head? = some 1 then
    .ok (some ⟨resp.tail, length_tail_of_head h⟩)
  else if resp.head? = some 0 then .ok none
  else .error (.sync (str "malformed HEAD response"))

/-- Empty bytes stand for something missing. -/
def present (data : Bytes) : Option Bytes := if data = [] then none else some data

def decodePayload (resp : Bytes) : Except Error (Option Bytes) :=
  match framePayload resp with
  | .error e => .error e
  | .ok data => .ok (present data)

/-- One byte for each hash that was asked for. -/
def decodeHave (batch : List Hash) (resp : Bytes) : Except Error (List Bool) :=
  if resp.length ≠ batch.length then .error (.sync (str "HAVE response truncated"))
  else .ok (resp.map fun b => b = 1)

/-- `pull` starts by asking for the HEAD. -/
theorem pull_eq (addr : Bytes) (peer : Peer) :
    pull X st addr peer =
      if 58 ∉ addr then
        throw (.sync (str "connect " ++ addr ++ str ": invalid socket address"))
      else (do
        let resp ← look fun _ => exchange peer [] headRequest
        let head ← look fun _ => decodeHead resp
        match head with
        | some h => pullHead X st addr peer h
        | none => pure ⟨none, 0, 0, 0⟩) := by
  unfold pull
  by_cases haddr : 58 ∉ addr
  · rw [if_pos haddr, if_pos haddr]
  · rw [if_neg haddr, if_neg haddr]
    congr 1
    funext resp m
    unfold decodeHead
    by_cases hsome : resp.length = 33 ∧ resp.head? = some 1
    · simp only [dif_pos hsome]
      rfl
    · by_cases hnone : resp.head? = some 0
      · simp only [dif_neg hsome, if_pos hnone]
        rfl
      · simp only [dif_neg hsome, if_neg hnone]
        rfl

/-! ## What the answering store holds -/

/-- The manifest bytes as they lie there. -/
def storedManifest (fs : Fs) (h : Hash) : Except Error (Option Bytes) :=
  if st.hasManifest fs h then
    match st.getManifestBytes fs h with
    | .error e => .error e
    | .ok data => .ok (present data)
  else .ok none

/-- The bytes of an object, if it can be read and has its hash. -/
def storedObject (fs : Fs) (h : Hash) : Option Bytes :=
  match st.getObject X fs h with
  | .error _ => none
  | .ok data => present data

/-- An object is served when its content verifies and is not empty. -/
theorem storedObject_eq_some {fs : Fs} {h : Hash} {data : Bytes} :
    storedObject X st fs h = some data ↔ st.getObject X fs h = .ok data ∧ data ≠ [] := by
  unfold storedObject
  cases hget : st.getObject X fs h with
  | error e => simp
  | ok d =>
      by_cases hd : d = []
      · simp only [present, if_pos hd, Except.ok.injEq]
        constructor
        · intro hnone
          cases hnone
        · rintro ⟨rfl, hne⟩
          exact absurd hd hne
      · simp only [present, if_neg hd, Option.some.injEq, Except.ok.injEq]
        constructor
        · rintro rfl
          exact ⟨rfl, hd⟩
        · exact And.left

/-- Files are shorter than 64-bit code can count. -/
def FitsUsize (fs : Fs) : Prop := ∀ q d, fs.get q = some (.file d) → d.bytes.length < 2 ^ 64

/-- What is read from a fitting disk has a length that fits the machine word. -/
theorem FitsUsize.of_read {fs : Fs} (hfits : FitsUsize fs) {p : Path} {data : Bytes}
    (hread : fs.read p = .ok data) : data.length < 2 ^ 64 := by
  unfold Fs.read Fs.metadata at hread
  cases hres : fs.resolve true p with
  | error e =>
      rw [hres] at hread
      cases hread
  | ok q =>
      rw [hres] at hread
      cases hget : fs.get q with
      | none =>
          simp only [hget] at hread
          cases hread
      | some x =>
          simp only [hget] at hread
          cases x with
          | dir => cases hread
          | symlink target => cases hread
          | file d =>
              cases hread
              exact hfits q d hget

/-! ## Request, answer, decoding -/

/-- The answer to a HEAD request decodes to the HEAD that is stored. -/
theorem head_answer (fs : Fs) :
    (respondFrame X st fs headRequest >>= decodeHead) = st.head fs := by
  simp only [respondFrame, headRequest, if_true]
  cases st.head fs with
  | error e => rfl
  | ok head =>
      cases head with
      | none => rfl
      | some h =>
          have hform : (1 :: h.val).length = 33 ∧ (1 :: h.val).head? = some 1 :=
            ⟨by rw [List.length_cons, h.2], rfl⟩
          change decodeHead (1 :: h.val) = _
          rw [decodeHead, dif_pos hform]
          rfl

/-- A payload that is framed is decoded. -/
theorem decodePayload_payloadFrame {data : Bytes} (h : data.length < 2 ^ 64) :
    decodePayload (payloadFrame data) = .ok (present data) := by
  rw [decodePayload, framePayload_payloadFrame h]

theorem decodePayload_missing : decodePayload (payloadFrame []) = .ok none :=
  decodePayload_payloadFrame (Nat.two_pow_pos 64)

/-- The answer to a manifest request decodes to the bytes that are stored, or to
nothing. -/
theorem manifest_answer {fs : Fs} (hfits : FitsUsize fs) (h : Hash) :
    (respondFrame X st fs (manifestRequest h) >>= decodePayload) = storedManifest st fs h := by
  have hop : OP_GET_MANIFEST ≠ OP_GET_HEAD := by decide
  have hlen : True ∧ h.val.length = 32 := ⟨trivial, h.2⟩
  simp only [respondFrame, manifestRequest, if_neg hop, hlen, and_self, dif_pos, Subtype.eta]
  unfold storedManifest
  by_cases hhas : st.hasManifest fs h = true
  · rw [if_pos hhas, if_pos hhas]
    cases hget : st.getManifestBytes fs h with
    | error e => rfl
    | ok data =>
        have hread : fs.read (st.manifestPath h) = .ok data := by
          unfold Store.getManifestBytes Store.readBlob at hget
          cases hfile : fs.read (st.manifestPath h) with
          | ok d =>
              rw [hfile] at hget
              cases hget
              rfl
          | error e =>
              rw [hfile] at hget
              cases e <;> cases hget
        simp only [bind, Except.bind]
        exact decodePayload_payloadFrame (hfits.of_read hread)
  · rw [if_neg hhas, if_neg hhas]
    exact decodePayload_missing

/-- The answer to an object request decodes to the object, if it can be read and
has its hash. -/
theorem object_answer (fs : Fs) (h : Hash) :
    (respondFrame X st fs (objectRequest h) >>= decodePayload) = .ok (storedObject X st fs h) := by
  have hhead : OP_GET_OBJECT ≠ OP_GET_HEAD := by decide
  have hmanifest : OP_GET_OBJECT ≠ OP_GET_MANIFEST := by decide
  have hhave : OP_GET_OBJECT ≠ OP_HAVE := by decide
  have hlen : True ∧ h.val.length = 32 := ⟨trivial, h.2⟩
  simp only [respondFrame, objectRequest, if_neg hhead, hmanifest, hhave, false_and, dif_neg,
    not_false_eq_true, if_neg, hlen, and_self, dif_pos, Subtype.eta]
  unfold storedObject
  cases hget : st.getObject X fs h with
  | error e => exact decodePayload_missing
  | ok data =>
      have hcap : MAX_OBJECT_SIZE < 2 ^ 64 := by decide
      have hsize := (Store.blake3_of_getObject X st hget).2
      simp only [bind, Except.bind]
      exact decodePayload_payloadFrame (by omega)

/-- The answer to a HAVE request says of each hash whether its object is there. -/
theorem have_answer (fs : Fs) {batch : List Hash} (hcount : batch.length < 2 ^ 32) :
    (respondFrame X st fs (haveRequest batch) >>= decodeHave batch) =
      .ok (batch.map (st.hasObject fs)) := by
  have hnum : leNat (leBytes 4 batch.length) = batch.length := leNat_leBytes (by omega)
  have hbody : (batch.flatMap Subtype.val).length = batch.length * 32 := by
    rw [List.length_flatMap]
    have hall : batch.map (fun h => h.val.length) = batch.map fun _ => 32 :=
      List.map_congr_left fun h _ => h.2
    rw [hall, List.map_const', List.sum_replicate_nat]
  have hrespond : respondFrame X st fs (haveRequest batch) =
      .ok (batch.map fun h => if st.hasObject fs h then 1 else 0) := by
    have hhead : OP_HAVE ≠ OP_GET_HEAD := by decide
    have hmanifest : OP_HAVE ≠ OP_GET_MANIFEST := by decide
    have htake : (leBytes 4 batch.length ++ batch.flatMap Subtype.val).take 4 =
        leBytes 4 batch.length := List.take_left' (leBytes_length 4 _)
    have hdrop : (leBytes 4 batch.length ++ batch.flatMap Subtype.val).drop 4 =
        batch.flatMap Subtype.val := List.drop_left' (leBytes_length 4 _)
    have hlen : (leBytes 4 batch.length ++ batch.flatMap Subtype.val).length =
        4 + batch.length * 32 := by
      rw [List.length_append, leBytes_length, hbody]
    have hlong : True ∧ 4 + batch.length * 32 ≥ 4 := ⟨trivial, by omega⟩
    simp only [respondFrame, haveRequest, List.cons_append, if_neg hhead, hmanifest, false_and,
      dif_neg, not_false_eq_true, htake, hnum, hlen, ne_eq, not_true_eq_false, if_false, hdrop,
      cutHashes_flatMap, if_pos hlong]
  rw [hrespond]
  change decodeHave batch (batch.map fun h => if st.hasObject fs h then 1 else 0) = _
  have hsame : ¬ (batch.map fun h => if st.hasObject fs h then (1 : UInt8) else 0).length ≠
      batch.length := by
    rw [List.length_map]
    exact not_not.mpr rfl
  rw [decodeHave, if_neg hsame, List.map_map]
  congr 1
  apply List.map_congr_left
  intro h _
  cases hhas : st.hasObject fs h <;> simp [hhas]

/-! ## Indices and sums as they stand in the source -/

namespace Checked

/-- A result of 64-bit arithmetic; none when it wraps. -/
def usize (n : Nat) : Option Nat := if n < 2 ^ 64 then some n else none

/-- `&bytes[lo..hi]`; none when it panics. -/
def slice (bytes : Bytes) (lo hi : Nat) : Option Bytes :=
  if lo ≤ hi ∧ hi ≤ bytes.length then some ((bytes.take hi).drop lo) else none

/-- `try_into().unwrap()` into an array of `n` bytes. -/
def array (n : Nat) (bytes : Bytes) : Option Bytes := if bytes.length = n then some bytes else none

/-- The same into a hash. -/
def hash (bytes : Bytes) : Option Hash := if h : bytes.length = 32 then some ⟨bytes, h⟩ else none

def readU64 (frame : Bytes) : Option (Except Error Nat) :=
  if frame.length < 8 then some (.error (.sync (str "short frame")))
  else do
    let word ← slice frame 0 8
    let word ← array 8 word
    some (.ok (leNat word))

def framePayload (frame : Bytes) : Option (Except Error Bytes) := do
  match ← readU64 frame with
  | .error e => some (.error e)
  | .ok len =>
      if len = 0 then some (.ok [])
      -- `saturating_sub`
      else if len > frame.length - 8 then some (.error (.sync (str "truncated frame payload")))
      else do
        let hi ← usize (8 + len)
        let data ← slice frame 8 hi
        some (.ok data)

/-- `for i in 0..n` of a HAVE request, from `i` with `left` hashes to go. -/
def haveBits (fs : Fs) (frame : Bytes) : Nat → Nat → Option Bytes
  | 0, _ => some []
  | left + 1, i => do
      let lo ← usize (i * 32)
      let lo ← usize (5 + lo)
      let next ← usize (i + 1)
      let hi ← usize (next * 32)
      let hi ← usize (5 + hi)
      let h ← slice frame lo hi
      let h ← hash h
      let rest ← haveBits fs frame left next
      some ((if st.hasObject fs h then 1 else 0) :: rest)

def respondFrame (fs : Fs) (frame : Bytes) : Option (Except Error Bytes) :=
  if frame.head? = some OP_GET_HEAD then
    match st.head fs with
    | .error e => some (.error e)
    | .ok none => some (.ok [0])
    | .ok (some h) => some (.ok (1 :: h.val))
  else if frame.head? = some OP_GET_MANIFEST ∧ frame.length = 33 then do
    let h ← slice frame 1 frame.length
    let h ← hash h
    if st.hasManifest fs h then
      match st.getManifestBytes fs h with
      | .error e => some (.error e)
      | .ok data => some (.ok (payloadFrame data))
    else some (.ok (payloadFrame []))
  else if frame.head? = some OP_HAVE ∧ frame.length ≥ 5 then do
    let n ← slice frame 1 5
    let n ← array 4 n
    let total ← usize (leNat n * 32)
    let total ← usize (5 + total)
    if frame.length ≠ total then some (.error (.sync (str "malformed HAVE")))
    else do
      let out ← haveBits st fs frame (leNat n) 0
      some (.ok out)
  else if frame.head? = some OP_GET_OBJECT ∧ frame.length = 33 then do
    let h ← slice frame 1 frame.length
    let h ← hash h
    match st.getObject X fs h with
    | .error _ => some (.ok (payloadFrame []))
    | .ok data => some (.ok (payloadFrame data))
  else some (.error (.sync (str "unknown opcode")))

/-! ## They never fault -/

theorem usize_eq {n : Nat} (h : n < 2 ^ 64) : usize n = some n := if_pos h

theorem slice_eq {bytes : Bytes} {lo hi : Nat} (hlo : lo ≤ hi) (hhi : hi ≤ bytes.length) :
    slice bytes lo hi = some ((bytes.take hi).drop lo) := if_pos ⟨hlo, hhi⟩

/-- Little-endian bytes denote a number of that many bytes. -/
theorem leNat_lt (bytes : Bytes) : leNat bytes < 256 ^ bytes.length := by
  induction bytes with
  | nil => exact Nat.one_pos
  | cons b rest ih =>
      have hb := b.toNat_lt
      rw [leNat, List.length_cons, Nat.pow_succ]
      omega

/-- No decoding of eight bytes overflows. -/
theorem readU64_eq (frame : Bytes) : readU64 frame = some (Sync.readU64 frame) := by
  unfold readU64 Sync.readU64
  by_cases hshort : frame.length < 8
  · rw [if_pos hshort, if_pos hshort]
  · have hword : slice frame 0 8 = some (frame.take 8) := slice_eq (Nat.zero_le _) (by omega)
    have harray : array 8 (frame.take 8) = some (frame.take 8) :=
      if_pos (List.length_take_of_le (by omega))
    rw [if_neg hshort, if_neg hshort, hword]
    simp only [bind, Option.bind, harray]

/-- No framing of a payload overflows. -/
theorem framePayload_eq {frame : Bytes} (hlen : frame.length < 2 ^ 64) :
    framePayload frame = some (Sync.framePayload frame) := by
  unfold framePayload Sync.framePayload
  rw [readU64_eq]
  cases Sync.readU64 frame with
  | error e => rfl
  | ok len =>
      simp only [bind, Option.bind]
      by_cases hzero : len = 0
      · rw [if_pos hzero, if_pos hzero]
      · by_cases hlong : len > frame.length - 8
        · rw [if_neg hzero, if_neg hzero, if_pos hlong, if_pos hlong]
        · have hhi : 8 + len ≤ frame.length := by omega
          have hcut : (frame.take (8 + len)).drop 8 = (frame.drop 8).take len := by
            rw [List.drop_take, Nat.add_sub_cancel_left]
          rw [if_neg hzero, if_neg hzero, if_neg hlong, if_neg hlong]
          simp only [usize_eq (show 8 + len < 2 ^ 64 by omega),
            slice_eq (Nat.le_add_right 8 len) hhi, hcut]

/-- The loop cuts the hashes of the body one after another. -/
theorem haveBits_eq {fs : Fs} {frame : Bytes} {left i : Nat}
    (hbody : 5 + (i + left) * 32 ≤ frame.length) (hlen : frame.length < 2 ^ 64) :
    haveBits st fs frame left i = some ((cutHashes left (frame.drop (5 + i * 32))).map fun h =>
      if st.hasObject fs h then 1 else 0) := by
  induction left generalizing i with
  | zero => rfl
  | succ left ih =>
      have hhi : 5 + (i + 1) * 32 ≤ frame.length := by omega
      have hcut : (frame.take (5 + (i + 1) * 32)).drop (5 + i * 32) =
          (frame.drop (5 + i * 32)).take 32 := by
        rw [List.drop_take]
        congr 1
        omega
      have hslice : slice frame (5 + i * 32) (5 + (i + 1) * 32) =
          some ((frame.drop (5 + i * 32)).take 32) := by
        rw [slice_eq (by omega) hhi, hcut]
      have hfull : ((frame.drop (5 + i * 32)).take 32).length = 32 := by
        rw [List.length_take, List.length_drop]
        omega
      have hhash : hash ((frame.drop (5 + i * 32)).take 32) = some ⟨_, hfull⟩ := dif_pos hfull
      have hrest := ih (i := i + 1) (by omega)
      have hdrop : (frame.drop (5 + i * 32)).drop 32 = frame.drop (5 + (i + 1) * 32) := by
        rw [List.drop_drop]
        congr 1
        omega
      unfold haveBits cutHashes
      simp only [bind, Option.bind, usize_eq (show i * 32 < 2 ^ 64 by omega),
        usize_eq (show 5 + i * 32 < 2 ^ 64 by omega), usize_eq (show i + 1 < 2 ^ 64 by omega),
        usize_eq (show (i + 1) * 32 < 2 ^ 64 by omega),
        usize_eq (show 5 + (i + 1) * 32 < 2 ^ 64 by omega), hslice, hhash, hrest, dif_pos hfull,
        hdrop, List.map_cons]

theorem hash_eq {bytes : Bytes} (h : bytes.length = 32) : hash bytes = some ⟨bytes, h⟩ :=
  dif_pos h

/-- `frame[1..]` -/
theorem slice_body (op : UInt8) (body : Bytes) :
    slice (op :: body) 1 (op :: body).length = some body := by
  rw [slice_eq (by simp) le_rfl, List.take_length, List.drop_one, List.tail_cons]

/-- The number of hashes is in the four bytes after the opcode. -/
theorem slice_count (op : UInt8) {body : Bytes} (hfour : body.length ≥ 4) :
    slice (op :: body) 1 5 = some (body.take 4) ∧ array 4 (body.take 4) = some (body.take 4) := by
  constructor
  · rw [slice_eq (by omega) (by rw [List.length_cons]; omega)]
    rfl
  · exact if_pos (List.length_take_of_le hfour)

/-- **No frame faults the answering side.** -/
theorem respondFrame_eq {fs : Fs} {frame : Bytes} (hlen : frame.length < 2 ^ 64) :
    respondFrame X st fs frame = some (Sync.respondFrame X st fs frame) := by
  cases frame with
  | nil => rfl
  | cons op body =>
      have hop : ∀ code : UInt8, (op :: body).head? = some code ↔ op = code := fun code => by simp
      have hthirty : (op :: body).length = 33 ↔ body.length = 32 := by
        rw [List.length_cons]
        omega
      have hfive : (op :: body).length ≥ 5 ↔ body.length ≥ 4 := by
        rw [List.length_cons]
        omega
      unfold respondFrame Sync.respondFrame
      simp only [hop, hthirty, hfive]
      by_cases hhead : op = OP_GET_HEAD
      · simp only [if_pos hhead]
        cases st.head fs with
        | error e => rfl
        | ok head => cases head <;> rfl
      · by_cases hmanifest : op = OP_GET_MANIFEST ∧ body.length = 32
        · simp only [if_neg hhead, if_pos hmanifest, dif_pos hmanifest, bind, Option.bind,
            slice_body, hash_eq hmanifest.2]
          by_cases hhas : st.hasManifest fs ⟨body, hmanifest.2⟩ = true
          · simp only [if_pos hhas]
            cases st.getManifestBytes fs ⟨body, hmanifest.2⟩ <;> rfl
          · simp only [if_neg hhas]
        · by_cases hhave : op = OP_HAVE ∧ body.length ≥ 4
          · obtain ⟨hslice, harray⟩ := slice_count op hhave.2
            have hfour : (body.take 4).length = 4 := List.length_take_of_le hhave.2
            have hcount := leNat_lt (body.take 4)
            rw [hfour] at hcount
            simp only [if_neg hhead, if_neg hmanifest, dif_neg hmanifest, if_pos hhave, bind,
              Option.bind, hslice, harray,
              usize_eq (show leNat (body.take 4) * 32 < 2 ^ 64 by omega),
              usize_eq (show 5 + leNat (body.take 4) * 32 < 2 ^ 64 by omega), List.length_cons]
            by_cases hsize : body.length = 4 + leNat (body.take 4) * 32
            · have hbits := @haveBits_eq st fs (op :: body) (leNat (body.take 4)) 0
                (by rw [List.length_cons]; omega) hlen
              have hsame : ¬ body.length + 1 ≠ 5 + leNat (body.take 4) * 32 := by omega
              have hsame' : ¬ body.length ≠ 4 + leNat (body.take 4) * 32 := not_not.mpr hsize
              simp only [if_neg hsame, if_neg hsame', hbits]
              rfl
            · have hother : body.length + 1 ≠ 5 + leNat (body.take 4) * 32 := by omega
              simp only [if_pos hother, ne_eq, if_pos hsize]
          · by_cases hobject : op = OP_GET_OBJECT ∧ body.length = 32
            · simp only [if_neg hhead, if_neg hmanifest, dif_neg hmanifest, if_neg hhave,
                if_pos hobject, dif_pos hobject, bind, Option.bind, slice_body,
                hash_eq hobject.2]
              cases st.getObject X fs ⟨body, hobject.2⟩ <;> rfl
            · simp only [if_neg hhead, if_neg hmanifest, dif_neg hmanifest, if_neg hhave,
                if_neg hobject, dif_neg hobject]

end Checked

/-- **A request answered and decoded is a look at the store.**  A HEAD request
yields the HEAD, a manifest or object request the bytes that are there, those
of an object with their hash checked, and a HAVE request one bit for each hash;
what fails is only what fails on the answering disk.  Whatever the frame, no
index is out of range and nothing wraps. -/
theorem answers_decode (fs : Fs) (hfits : FitsUsize fs) :
    (respondFrame X st fs headRequest >>= decodeHead) = st.head fs ∧
      (∀ h, (respondFrame X st fs (manifestRequest h) >>= decodePayload) =
        storedManifest st fs h) ∧
      (∀ h, (respondFrame X st fs (objectRequest h) >>= decodePayload) =
        .ok (storedObject X st fs h)) ∧
      (∀ h data, storedObject X st fs h = some data → X.blake3 data = h ∧ data ≠ []) ∧
      (∀ batch : List Hash, batch.length < 2 ^ 32 →
        (respondFrame X st fs (haveRequest batch) >>= decodeHave batch) =
          .ok (batch.map (st.hasObject fs))) ∧
      ∀ frame : Bytes, frame.length < 2 ^ 64 →
        Checked.respondFrame X st fs frame = some (respondFrame X st fs frame) ∧
          Checked.framePayload frame = some (framePayload frame) := by
  refine ⟨head_answer X st fs, manifest_answer X st hfits, object_answer X st fs, ?_, ?_, ?_⟩
  · intro h data hstored
    obtain ⟨hget, hne⟩ := (storedObject_eq_some X st).mp hstored
    exact ⟨(Store.blake3_of_getObject X st hget).1, hne⟩
  · exact fun batch hcount => have_answer X st fs hcount
  · exact fun frame hlen => ⟨Checked.respondFrame_eq X st hlen, Checked.framePayload_eq hlen⟩

/-- A fabric with a HEAD, its manifest and an object. -/
def servingFabric : Fs :=
  Fs.build (Store.fabricNodes ⟨[str "w"]⟩ (hashHex (padHash (str "m"))) ++
    Store.blobNodes ⟨[str "w"]⟩ (str "manifests") (padHash (str "m")) (str "m") ++
    Store.blobNodes ⟨[str "w"]⟩ (str "objects") (padHash (str "A")) (str "A"))

/-- A file of a length that a machine word holds, or no file. -/
def shortNode : Node → Bool
  | .file d => decide (d.bytes.length < 2 ^ 64)
  | _ => true

/-- Every file of the serving fabric fits the machine word. -/
theorem servingFabric_fits : FitsUsize servingFabric := by
  intro q d hget
  have hall : ∀ k ∈ servingFabric.nodes.keys, (servingFabric.get k).all shortNode = true := by
    decide +kernel
  have hshort := hall q (servingFabric.mem_keys hget)
  rw [hget] at hshort
  exact of_decide_eq_true hshort

/-- The peer is asked for its HEAD, for an object it has and one it has not, and
which of the two it has. -/
theorem answers_decode_serving :
    (respondFrame (smallCrates [] [] []) ⟨[str "w"]⟩ servingFabric headRequest >>= decodeHead) =
        Store.head ⟨[str "w"]⟩ servingFabric ∧
      (respondFrame (smallCrates [] [] []) ⟨[str "w"]⟩ servingFabric
        (objectRequest (padHash (str "A"))) >>= decodePayload) = .ok (some (str "A")) ∧
      (respondFrame (smallCrates [] [] []) ⟨[str "w"]⟩ servingFabric
        (objectRequest (padHash (str "B"))) >>= decodePayload) = .ok none ∧
      (respondFrame (smallCrates [] [] []) ⟨[str "w"]⟩ servingFabric
        (haveRequest [padHash (str "A"), padHash (str "B")]) >>=
          decodeHave [padHash (str "A"), padHash (str "B")]) = .ok [true, false] := by
  obtain ⟨hhead, -, hobject, -, hhave, -⟩ :=
    answers_decode (smallCrates [] [] []) ⟨[str "w"]⟩ servingFabric servingFabric_fits
  refine ⟨hhead, (hobject _).trans ?_, (hobject _).trans ?_, (hhave _ (by decide)).trans ?_⟩
  · exact congrArg Except.ok (by decide +kernel)
  · exact congrArg Except.ok (by decide +kernel)
  · exact congrArg Except.ok (by decide +kernel)

end Sync

end Respawn
