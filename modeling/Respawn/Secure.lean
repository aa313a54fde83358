import Respawn.Sync

/-!
# The encrypted transport

After the handshake both ends hold a Noise transport: a cipher for each
direction that counts its messages.  `write_frame` sends an app frame as a
header message, which holds the length, and then messages of at most 48 KiB;
`read_frame` reads the header and collects messages until it has that many
bytes.

The cipher is a parameter: `encrypt` and `decrypt` get the number of the
message.  A message that is not accepted leaves the count as it is.  What the
development relies on is `Documented` (an honest message is 16 bytes longer
than what it carries and decrypts to it) and, for bytes that somebody has
interfered with, `Unforged` (what is accepted as message number `n` is what was
encrypted as number `n`).

* `round_trip` — all that is written is read, whatever the lengths;
* `readFrame_boundary`, `readFrame_leftover` — where the reader can be after a
  frame that failed;
* `frames_intact` — the two combined, over any number of reads.
-/

namespace Respawn

open ByteStr FileTree StateLogic

namespace Secure

open Sync (leBytes leNat leNat_leBytes leBytes_length batches)

/-- Largest plaintext of one message. -/
def PLAINTEXT_MSG : Nat := 48 * 1024

def MAX_FRAME : Nat := 64 * 1024 * 1024

/-- The transport's cipher: message number and text, with the reason of a
refusal. -/
structure Noise where
  encrypt : Nat → Bytes → Except Bytes Bytes
  decrypt : Nat → Bytes → Except Bytes Bytes

/-- One end of a connection: the plaintexts encrypted so far (their number is
the number of the next message), the messages decrypted so far, and the bytes
to come and gone out. -/
structure SecureStream where
  sealed : List Bytes
  received : Nat
  incoming : Bytes
  outgoing : Bytes

/-- A stream right after the handshake, with the bytes that will arrive. -/
def SecureStream.fresh (arriving : Bytes) : SecureStream := ⟨[], 0, arriving, []⟩

abbrev Io := EStateM Error SecureStream

variable (N : Noise)

/-! ## Messages -/

/-- `read_exact`: what is left is gone when the peer closes too early. -/
def readExact (n : Nat) : Io Bytes := fun s =>
  if s.incoming.length < n then .error (.io .other) { s with incoming := [] }
  else .ok (s.incoming.take n) { s with incoming := s.incoming.drop n }

def writeAll (data : Bytes) : Io Unit := fun s =>
  .ok () { s with outgoing := s.outgoing ++ data }

def writeMsg (data : Bytes) : Io Unit :=
  if data.length > PLAINTEXT_MSG + 64 then throw (.sync (str "noise message oversized"))
  else do
    writeAll (leBytes 4 data.length)
    writeAll data

def readMsg (cap : Nat) : Io Bytes := do
  let lenBuf ← readExact 4
  let len := leNat lenBuf
  if len = 0 ∨ len > cap then throw (.sync (str "noise message length invalid"))
  else readExact len

/-- `transport.write_message` -/
def writeMessage (text : Bytes) : Io Bytes := fun s =>
  match N.encrypt s.sealed.length text with
  | .ok ct => .ok ct { s with sealed := s.sealed ++ [text] }
  | .error e => .error (.sync (str "noise encrypt: " ++ e)) s

/-- `transport.read_message` -/
def readMessage (ct : Bytes) : Io Bytes := fun s =>
  match N.decrypt s.received ct with
  | .ok text => .ok text { s with received := s.received + 1 }
  | .error e => .error (.sync (str "noise decrypt: " ++ e)) s

/-- Encrypt and send one message. -/
def sendMessage (text : Bytes) : Io Unit := do
  let ct ← writeMessage N text
  writeMsg ct

/-- Receive and decrypt one message. -/
def nextMessage : Io Bytes := do
  let ct ← readMsg (PLAINTEXT_MSG + 64)
  readMessage N ct

/-! ## Frames -/

/-- `payload.chunks(PLAINTEXT_MSG)` -/
def chunks (payload : Bytes) : List Bytes := batches PLAINTEXT_MSG payload.length payload

def writeFrame (payload : Bytes) : Io Unit :=
  if payload.length > MAX_FRAME then throw (.sync (str "frame too large"))
  else do
    sendMessage N (leBytes 4 payload.length)
    forEach (chunks payload) (sendMessage N)

/-- The loop of `read_frame`.  Every turn adds a byte at least, so `appLen`
turns are enough (`readRest_length`). -/
def readRest (appLen : Nat) : Nat → Bytes → Io Bytes
  | 0, out => pure out
  | k + 1, out =>
      if out.length < appLen then do
        let text ← nextMessage N
        if out.length + text.length > appLen then throw (.sync (str "noise frame overflow"))
        else if text.length = 0 then throw (.sync (str "noise frame stalled"))
        else readRest appLen k (out ++ text)
      else pure out

/-- A loop that ends has all the bytes, so it never ends for want of turns. -/
theorem readRest_length {appLen k : Nat} {out : Bytes} {s : SecureStream}
    (hout : out.length ≤ appLen) (hk : appLen ≤ out.length + k) :
    After (readRest N appLen k out s) (fun frame _ => frame.length = appLen) (fun _ _ => True) := by
  induction k generalizing out s with
  | zero => exact Nat.le_antisymm hout hk
  | succ k ih =>
      unfold readRest
      by_cases hmore : out.length < appLen
      · rw [if_pos hmore]
        apply After.bind (P := fun _ _ => True)
        · cases nextMessage N s <;> trivial
        · intro text s' _
          by_cases hover : out.length + text.length > appLen
          · rw [if_pos hover]
            trivial
          · by_cases hstall : text.length = 0
            · rw [if_neg hover, if_pos hstall]
              trivial
            · rw [if_neg hover, if_neg hstall]
              apply ih
              · rw [List.length_append]
                omega
              · rw [List.length_append]
                omega
      · rw [if_neg hmore]
        exact Nat.le_antisymm hout (Nat.le_of_not_lt hmore)

def readFrame : Io Bytes := do
  let header ← nextMessage N
  if header.length ≠ 4 then throw (.sync (str "noise frame header malformed"))
  else
    let appLen := leNat header
    if appLen > MAX_FRAME then throw (.sync (str "frame too large"))
    else readRest N appLen appLen []

/-- The outcomes of `k` calls of `read_frame`, made whatever the earlier ones
returned. -/
def attempts : Nat → SecureStream → List (Except Error Bytes)
  | 0, _ => []
  | k + 1, s =>
      match readFrame N s with
      | .ok payload s' => .ok payload :: attempts k s'
      | .error e s' => .error e :: attempts k s'

/-- What `write_frame` encrypts for a sequence of payloads. -/
def messages (payloads : List Bytes) : List Bytes :=
  payloads.flatMap fun p => leBytes 4 p.length :: chunks p

/-! ## What the cipher is relied on for -/

/-- An honest message is accepted for what it carries, and 16 bytes longer. -/
def Documented : Prop :=
  ∀ n text, text.length ≤ PLAINTEXT_MSG →
    ∃ ct, N.encrypt n text = .ok ct ∧ ct.length = text.length + 16 ∧ N.decrypt n ct = .ok text

/-- Whatever stands in the arriving bytes as a message, with its length before
it: the cipher accepts it as number `n` only for the text that was encrypted as
number `n`. -/
def Unforged (sent : List Bytes) (arriving : Bytes) : Prop :=
  ∀ n lenBuf ct text, lenBuf.length = 4 → leNat lenBuf = ct.length →
    lenBuf ++ ct <:+: arriving → N.decrypt n ct = .ok text → sent[n]? = some text

/-! ## Pieces -/

/-- The pieces of a payload make it up. -/
theorem chunks_flatten (payload : Bytes) : (chunks payload).flatten = payload := by
  suffices h : ∀ (k : Nat) (l : Bytes), l.length ≤ k → (batches PLAINTEXT_MSG k l).flatten = l from
    h _ _ le_rfl
  intro k
  induction k with
  | zero =>
      intro l hl
      rw [List.length_eq_zero_iff.mp (Nat.le_zero.mp hl)]
      rfl
  | succ k ih =>
      intro l hl
      cases l with
      | nil => rfl
      | cons a rest =>
          have hdrop : ((a :: rest).drop PLAINTEXT_MSG).length ≤ k := by
            rw [List.length_drop]
            have : 0 < PLAINTEXT_MSG := by decide
            omega
          rw [batches, List.flatten_cons, ih _ hdrop, List.take_append_drop]

/-- A piece is full or the last one. -/
theorem length_of_mem_chunks {payload piece : Bytes} (h : piece ∈ chunks payload) :
    piece.length = PLAINTEXT_MSG ∨
      (0 < piece.length ∧ piece.length = payload.length % PLAINTEXT_MSG) := by
  suffices hgen : ∀ (k : Nat) (l : Bytes), piece ∈ batches PLAINTEXT_MSG k l →
      piece.length = PLAINTEXT_MSG ∨
        (0 < piece.length ∧ piece.length = l.length % PLAINTEXT_MSG) from hgen _ _ h
  have hpos : 0 < PLAINTEXT_MSG := by decide
  intro k
  induction k with
  | zero =>
      intro l hmem
      cases hmem
  | succ k ih =>
      intro l hmem
      cases l with
      | nil => cases hmem
      | cons a rest =>
          rcases Nat.lt_or_ge (a :: rest).length PLAINTEXT_MSG with hshort | hfull
          · have hnone : (a :: rest).drop PLAINTEXT_MSG = [] := List.drop_eq_nil_of_le hshort.le
            have hone : batches PLAINTEXT_MSG k ([] : Bytes) = [] := by cases k <;> rfl
            rw [batches, hnone, hone, List.mem_singleton, List.take_of_length_le hshort.le] at hmem
            subst hmem
            exact .inr ⟨by simp, (Nat.mod_eq_of_lt hshort).symm⟩
          · rw [batches] at hmem
            rcases List.mem_cons.mp hmem with rfl | hlater
            · exact .inl (List.length_take_of_le hfull)
            · have hmod : ((a :: rest).drop PLAINTEXT_MSG).length % PLAINTEXT_MSG =
                  (a :: rest).length % PLAINTEXT_MSG := by
                rw [List.length_drop, ← Nat.mod_eq_sub_mod hfull]
              rw [← hmod]
              exact ih _ hlater

/-- No piece is empty. -/
theorem pos_of_mem_chunks {payload piece : Bytes} (h : piece ∈ chunks payload) :
    0 < piece.length := by
  have hpos : 0 < PLAINTEXT_MSG := by decide
  rcases length_of_mem_chunks h with hfull | hlast
  · omega
  · exact hlast.1

theorem le_of_mem_chunks {payload piece : Bytes} (h : piece ∈ chunks payload) :
    piece.length ≤ PLAINTEXT_MSG := Sync.length_of_mem_batches h

/-! ## Sending and receiving undisturbed -/

/-- Messages on the wire, from number `n` on. -/
def wire : Nat → List Bytes → Bytes
  | _, [] => []
  | n, text :: rest =>
      (match N.encrypt n text with
        | .ok ct => leBytes 4 ct.length ++ ct
        | .error _ => []) ++ wire (n + 1) rest

variable {N}

/-- What two batches put on the wire stands there one after the other. -/
theorem wire_append (n : Nat) (a b : List Bytes) :
    wire N n (a ++ b) = wire N n a ++ wire N (n + a.length) b := by
  induction a generalizing n with
  | nil => rfl
  | cons text rest ih =>
      have hnum : n + 1 + rest.length = n + (text :: rest).length := by
        rw [List.length_cons]
        omega
      rw [List.cons_append, wire, wire, ih, hnum, List.append_assoc]

/-- A message goes out under its number. -/
theorem sendMessage_run (hN : Documented N) {text : Bytes} (hlen : text.length ≤ PLAINTEXT_MSG)
    (s : SecureStream) :
    sendMessage N text s = .ok () { s with
      sealed := s.sealed ++ [text]
      outgoing := s.outgoing ++ wire N s.sealed.length [text] } := by
  obtain ⟨ct, henc, hct, -⟩ := hN s.sealed.length text hlen
  have hsize : ¬ ct.length > PLAINTEXT_MSG + 64 := by omega
  have hwire : wire N s.sealed.length [text] = leBytes 4 ct.length ++ ct := by
    simp only [wire, henc, List.append_nil]
  rw [hwire, ← List.append_assoc]
  simp only [sendMessage, bind_apply, writeMessage, henc, writeMsg, if_neg hsize, writeAll]

/-- Messages go out in order. -/
theorem sendAll_run (hN : Documented N) {texts : List Bytes}
    (hlen : ∀ t ∈ texts, t.length ≤ PLAINTEXT_MSG) (s : SecureStream) :
    forEach texts (sendMessage N) s = .ok () { s with
      sealed := s.sealed ++ texts
      outgoing := s.outgoing ++ wire N s.sealed.length texts } := by
  induction texts generalizing s with
  | nil => simp [forEach, wire]
  | cons text rest ih =>
      have hfirst := sendMessage_run hN (hlen text List.mem_cons_self) s
      have hrest := fun s' => ih (fun t ht => hlen t (List.mem_cons_of_mem _ ht)) s'
      have hwire : wire N s.sealed.length (text :: rest) =
          wire N s.sealed.length [text] ++ wire N (s.sealed.length + 1) rest :=
        wire_append _ [text] rest
      simp only [forEach, bind_apply, hfirst, hrest, hwire, List.append_assoc, List.cons_append,
        List.nil_append, List.length_append, List.length_cons, List.length_nil, Nat.zero_add]

/-- A frame goes out as its header and its pieces. -/
theorem writeFrame_run (hN : Documented N) {payload : Bytes} (hlen : payload.length ≤ MAX_FRAME)
    (s : SecureStream) :
    writeFrame N payload s = .ok () { s with
      sealed := s.sealed ++ (leBytes 4 payload.length :: chunks payload)
      outgoing := s.outgoing ++ wire N s.sealed.length
        (leBytes 4 payload.length :: chunks payload) } := by
  have hall : ∀ t ∈ leBytes 4 payload.length :: chunks payload, t.length ≤ PLAINTEXT_MSG := by
    intro t ht
    rcases List.mem_cons.mp ht with rfl | hpiece
    · rw [leBytes_length]
      decide
    · exact le_of_mem_chunks hpiece
  have hsize : ¬ payload.length > MAX_FRAME := by omega
  rw [← sendAll_run hN hall s]
  simp only [writeFrame, if_neg hsize, forEach]

/-- Frames go out in order. -/
theorem writeFrames_run (hN : Documented N) {payloads : List Bytes}
    (hlen : ∀ p ∈ payloads, p.length ≤ MAX_FRAME) (s : SecureStream) :
    forEach payloads (writeFrame N) s = .ok () { s with
      sealed := s.sealed ++ messages payloads
      outgoing := s.outgoing ++ wire N s.sealed.length (messages payloads) } := by
  induction payloads generalizing s with
  | nil => simp [forEach, messages, wire]
  | cons p rest ih =>
      have hfirst := writeFrame_run hN (hlen p List.mem_cons_self) s
      have hrest := fun s' => ih (fun q hq => hlen q (List.mem_cons_of_mem _ hq)) s'
      have hall : messages (p :: rest) = (leBytes 4 p.length :: chunks p) ++ messages rest := rfl
      simp only [forEach, bind_apply, hfirst, hrest, hall, wire_append, List.append_assoc,
        List.length_append]

/-- Reading as many bytes as came first gives them. -/
theorem readExact_run {s : SecureStream} {a b : Bytes} (h : s.incoming = a ++ b) :
    readExact a.length s = .ok a { s with incoming := b } := by
  have hlen : ¬ s.incoming.length < a.length := by
    rw [h, List.length_append]
    omega
  rw [readExact, if_neg hlen, h, List.take_left, List.drop_left]

/-- An honest message arrives. -/
theorem nextMessage_run (hN : Documented N) {s : SecureStream} {text : Bytes} {rest : List Bytes}
    (hlen : text.length ≤ PLAINTEXT_MSG) (hs : s.incoming = wire N s.received (text :: rest)) :
    nextMessage N s = .ok text { s with
      received := s.received + 1, incoming := wire N (s.received + 1) rest } := by
  obtain ⟨ct, henc, hct, hdec⟩ := hN s.received text hlen
  have hcap : PLAINTEXT_MSG + 64 < 256 ^ 4 := by decide
  have hnum : leNat (leBytes 4 ct.length) = ct.length := leNat_leBytes (by omega)
  have hin : s.incoming = leBytes 4 ct.length ++ (ct ++ wire N (s.received + 1) rest) := by
    rw [hs, wire]
    simp only [henc, List.append_assoc]
  have hhead : readExact 4 s = .ok (leBytes 4 ct.length)
      { s with incoming := ct ++ wire N (s.received + 1) rest } := by
    have := readExact_run hin
    rwa [leBytes_length] at this
  have hbody : readExact ct.length { s with incoming := ct ++ wire N (s.received + 1) rest } =
      .ok ct { s with incoming := wire N (s.received + 1) rest } :=
    readExact_run (s := { s with incoming := ct ++ wire N (s.received + 1) rest }) rfl
  have hgood : ¬ (ct.length = 0 ∨ ct.length > PLAINTEXT_MSG + 64) := by omega
  simp only [nextMessage, readMsg, bind_apply, hhead, hnum, if_neg hgood, hbody, readMessage, hdec]

/-- The pieces of a frame are put together. -/
theorem readRest_run (hN : Documented N) {appLen k : Nat} {out : Bytes} {pieces rest : List Bytes}
    {s : SecureStream} (hpieces : ∀ t ∈ pieces, 0 < t.length ∧ t.length ≤ PLAINTEXT_MSG)
    (hall : out.length + pieces.flatten.length = appLen) (hk : pieces.length ≤ k)
    (hs : s.incoming = wire N s.received (pieces ++ rest)) :
    readRest N appLen k out s = .ok (out ++ pieces.flatten) { s with
      received := s.received + pieces.length
      incoming := wire N (s.received + pieces.length) rest } := by
  induction pieces generalizing k out s with
  | nil =>
      have hs' : s = { s with received := s.received, incoming := wire N s.received rest } := by
        rw [← List.nil_append rest, ← hs]
      have hdone : ¬ out.length < appLen := by
        simp only [List.flatten_nil, List.length_nil] at hall
        omega
      simp only [List.length_nil, Nat.add_zero, List.flatten_nil, List.append_nil, ← hs']
      cases k with
      | zero => rfl
      | succ k => exact congrFun (if_neg hdone) s
  | cons text more ih =>
      obtain ⟨hpos, hle⟩ := hpieces text List.mem_cons_self
      simp only [List.flatten_cons, List.length_append] at hall
      cases k with
      | zero => cases hk
      | succ k =>
          have hmore : out.length < appLen := by omega
          have hfits : ¬ out.length + text.length > appLen := by omega
          have hin : s.incoming = wire N s.received (text :: (more ++ rest)) := hs
          have hnext := nextMessage_run hN hle hin
          have hgo := @ih k (out ++ text)
            { s with
              received := s.received + 1
              incoming := wire N (s.received + 1) (more ++ rest) }
            (fun t ht => hpieces t (List.mem_cons_of_mem _ ht))
            (by rw [List.length_append]; omega) (Nat.le_of_succ_le_succ hk) rfl
          have hnum : s.received + 1 + more.length = s.received + (text :: more).length := by
            rw [List.length_cons]
            omega
          simp only [readRest, if_pos hmore, bind_apply, hnext, if_neg hfits, if_neg hpos.ne', hgo,
            hnum, List.flatten_cons, List.append_assoc]

/-- A piece holds a byte at least, so there are no more pieces than bytes. -/
theorem length_le_flatten {pieces : List Bytes} (h : ∀ t ∈ pieces, 0 < t.length) :
    pieces.length ≤ pieces.flatten.length := by
  induction pieces with
  | nil => exact le_rfl
  | cons text rest ih =>
      have hpos := h text List.mem_cons_self
      have hrest := ih fun t ht => h t (List.mem_cons_of_mem _ ht)
      rw [List.flatten_cons, List.length_append, List.length_cons]
      omega

theorem leNat_header {payload : Bytes} (hlen : payload.length ≤ MAX_FRAME) :
    leNat (leBytes 4 payload.length) = payload.length := by
  have hcap : MAX_FRAME < 256 ^ 4 := by decide
  exact leNat_leBytes (by omega)

/-- An honest frame is read whole. -/
theorem readFrame_run (hN : Documented N) {payload : Bytes} {rest : List Bytes}
    (hlen : payload.length ≤ MAX_FRAME) {s : SecureStream}
    (hs : s.incoming = wire N s.received (messages (payload :: rest))) :
    readFrame N s = .ok payload { s with
      received := s.received + (1 + (chunks payload).length)
      incoming := wire N (s.received + (1 + (chunks payload).length)) (messages rest) } := by
  have hsmall : (leBytes 4 payload.length).length ≤ PLAINTEXT_MSG := by
    rw [leBytes_length]
    decide
  have hin : s.incoming =
      wire N s.received (leBytes 4 payload.length :: (chunks payload ++ messages rest)) := hs
  have hheader := nextMessage_run hN hsmall hin
  have hfour : ¬ (leBytes 4 payload.length).length ≠ 4 := by
    rw [leBytes_length]
    decide
  have hsize : ¬ payload.length > MAX_FRAME := by omega
  have hpieces := fun t (ht : t ∈ chunks payload) => pos_of_mem_chunks ht
  have hcount : (chunks payload).length ≤ payload.length := by
    have := length_le_flatten hpieces
    rwa [chunks_flatten] at this
  have hbody := @readRest_run N hN payload.length payload.length [] (chunks payload) (messages rest)
    { s with
      received := s.received + 1
      incoming := wire N (s.received + 1) (chunks payload ++ messages rest) }
    (fun t ht => ⟨hpieces t ht, le_of_mem_chunks ht⟩)
    (by rw [chunks_flatten, List.length_nil, Nat.zero_add]) hcount rfl
  simp only [readFrame, bind_apply, hheader, if_neg hfour, leNat_header hlen, if_neg hsize, hbody,
    chunks_flatten, List.nil_append, Nat.add_assoc]

/-- **Nothing is lost.**  The reader of an undisturbed stream gets the payloads,
whatever their lengths. -/
theorem round_trip (hN : Documented N) {payloads : List Bytes}
    (hlen : ∀ p ∈ payloads, p.length ≤ MAX_FRAME) {s : SecureStream}
    (hs : s.incoming = wire N s.received (messages payloads)) :
    attempts N payloads.length s = payloads.map .ok := by
  induction payloads generalizing s with
  | nil => rfl
  | cons p rest ih =>
      have hfirst := readFrame_run hN (hlen p List.mem_cons_self) hs
      simp only [List.length_cons, attempts, hfirst, List.map_cons, List.cons.injEq, true_and]
      exact ih (fun q hq => hlen q (List.mem_cons_of_mem _ hq)) rfl

/-! ## Receiving what somebody has interfered with -/

/-- The reader has the messages `ahead` before it, of those that were sent. -/
structure Ahead (N : Noise) (sent : List Bytes) (ahead : List Bytes) (s : SecureStream) : Prop where
  unforged : Unforged N sent s.incoming
  rest : sent.drop s.received = ahead

/-- Bytes that are cut off leave nothing forged. -/
theorem Unforged.suffix {sent : List Bytes} {w w' : Bytes} (h : Unforged N sent w)
    (hw : w' <:+ w) : Unforged N sent w' :=
  fun n lenBuf ct text hfour hlen hin => h n lenBuf ct text hfour hlen (hin.trans hw.isInfix)

/-- Reading takes from the front of what comes in. -/
theorem readExact_after (n : Nat) (s : SecureStream) :
    After (readExact n s)
      (fun data s' => data.length = n ∧ s.incoming = data ++ s'.incoming ∧
        s'.received = s.received)
      (fun _ s' => s'.incoming <:+ s.incoming ∧ s'.received = s.received) := by
  unfold readExact
  by_cases hshort : s.incoming.length < n
  · rw [if_pos hshort]
    exact ⟨List.nil_suffix, rfl⟩
  · rw [if_neg hshort]
    refine ⟨List.length_take_of_le (Nat.le_of_not_lt hshort), ?_, rfl⟩
    exact (List.take_append_drop n s.incoming).symm

/-- A message that is read stood in the arriving bytes after its length. -/
theorem readMsg_after (cap : Nat) (s : SecureStream) :
    After (readMsg cap s)
      (fun ct s' => (∃ lenBuf : Bytes, lenBuf.length = 4 ∧ leNat lenBuf = ct.length ∧
        s.incoming = (lenBuf ++ ct) ++ s'.incoming) ∧ s'.received = s.received)
      (fun _ s' => s'.incoming <:+ s.incoming ∧ s'.received = s.received) := by
  unfold readMsg
  apply After.bind (readExact_after 4 s)
  rintro lenBuf s₁ ⟨hfour, hin₁, hrec₁⟩
  have hsuffix₁ : s₁.incoming <:+ s.incoming := ⟨lenBuf, hin₁.symm⟩
  by_cases hbad : leNat lenBuf = 0 ∨ leNat lenBuf > cap
  · have hrun : After ((throw (.sync (str "noise message length invalid")) : Io Bytes) s₁)
        (fun ct s' => (∃ lenBuf : Bytes, lenBuf.length = 4 ∧ leNat lenBuf = ct.length ∧
          s.incoming = (lenBuf ++ ct) ++ s'.incoming) ∧ s'.received = s.received)
        (fun _ s' => s'.incoming <:+ s.incoming ∧ s'.received = s.received) :=
      ⟨hsuffix₁, hrec₁⟩
    simpa only [if_pos hbad] using hrun
  · simp only [if_neg hbad]
    apply After.mono (readExact_after (leNat lenBuf) s₁)
    · rintro ct s₂ ⟨hlen, hin₂, hrec₂⟩
      refine ⟨⟨lenBuf, hfour, hlen.symm, ?_⟩, hrec₂.trans hrec₁⟩
      rw [hin₁, hin₂, List.append_assoc]
    · rintro e s₂ ⟨hsuffix₂, hrec₂⟩
      exact ⟨hsuffix₂.trans hsuffix₁, hrec₂.trans hrec₁⟩

/-- **One message.**  What is decrypted is the next message that was sent; a
failure leaves the reader before it. -/
theorem nextMessage_after {sent ahead : List Bytes} {s : SecureStream} (h : Ahead N sent ahead s) :
    After (nextMessage N s) (fun text s' => ∃ later, ahead = text :: later ∧ Ahead N sent later s')
      (fun _ s' => Ahead N sent ahead s') := by
  unfold nextMessage
  apply After.bind (P := fun ct (s' : SecureStream) =>
    (∃ lenBuf : Bytes, lenBuf.length = 4 ∧ leNat lenBuf = ct.length ∧
      s.incoming = (lenBuf ++ ct) ++ s'.incoming) ∧ s'.received = s.received)
  · apply After.mono (readMsg_after _ s)
    · exact fun ct s' hct => hct
    · rintro e s' ⟨hsuffix, hrec⟩
      exact ⟨h.unforged.suffix hsuffix, by rw [hrec]; exact h.rest⟩
  · rintro ct s₁ ⟨⟨lenBuf, hfour, hlen, hin⟩, hrec⟩
    have hsuffix : s₁.incoming <:+ s.incoming := ⟨_, hin.symm⟩
    have hrest : sent.drop s₁.received = ahead := by
      rw [hrec]
      exact h.rest
    unfold readMessage
    cases hdec : N.decrypt s₁.received ct with
    | error e => exact ⟨h.unforged.suffix hsuffix, hrest⟩
    | ok text =>
        have hstands : lenBuf ++ ct <:+: s.incoming := ⟨[], s₁.incoming, hin.symm⟩
        have hsent : sent[s₁.received]? = some text :=
          h.unforged _ _ _ _ hfour hlen hstands hdec
        obtain ⟨hlt, hget⟩ := List.getElem?_eq_some_iff.mp hsent
        refine ⟨sent.drop (s₁.received + 1), ?_, h.unforged.suffix hsuffix, rfl⟩
        rw [← hrest, List.drop_eq_getElem_cons hlt, hget]

/-- The loop puts the pieces of the frame together or stops between two of
them. -/
theorem readRest_after {sent pieces later : List Bytes} {appLen k : Nat} {out : Bytes}
    {s : SecureStream} (h : Ahead N sent (pieces ++ later) s)
    (hpieces : ∀ t ∈ pieces, 0 < t.length) (hall : out.length + pieces.flatten.length = appLen)
    (hk : pieces.length ≤ k) :
    After (readRest N appLen k out s)
      (fun frame s' => frame = out ++ pieces.flatten ∧ Ahead N sent later s')
      (fun _ s' => ∃ left, left <:+ pieces ∧ Ahead N sent (left ++ later) s') := by
  induction pieces generalizing k out s with
  | nil =>
      have hdone : ¬ out.length < appLen := by
        simp only [List.flatten_nil, List.length_nil] at hall
        omega
      have hrun : readRest N appLen k out s = .ok out s := by
        cases k with
        | zero => rfl
        | succ k => exact congrFun (if_neg hdone) s
      rw [hrun]
      exact ⟨by simp, h⟩
  | cons text more ih =>
      have hpos := hpieces text List.mem_cons_self
      simp only [List.flatten_cons, List.length_append] at hall
      cases k with
      | zero => cases hk
      | succ k =>
          have hmore : out.length < appLen := by omega
          unfold readRest
          rw [if_pos hmore]
          apply After.bind (P := fun text' (s' : SecureStream) =>
            text' = text ∧ Ahead N sent (more ++ later) s')
          · apply After.mono (nextMessage_after h)
            · rintro text' s' ⟨later', heq, hahead⟩
              obtain ⟨rfl, rfl⟩ := List.cons.inj heq
              exact ⟨rfl, hahead⟩
            · exact fun _ s' hahead => ⟨text :: more, List.suffix_refl _, hahead⟩
          · rintro text' s' ⟨rfl, hahead⟩
            rw [if_neg (by omega), if_neg hpos.ne']
            have hgo := @ih k (out ++ text') s' hahead
              (fun t ht => hpieces t (List.mem_cons_of_mem _ ht))
              (by rw [List.length_append]; omega) (Nat.le_of_succ_le_succ hk)
            apply After.mono hgo
            · rintro frame s'' ⟨rfl, hlater⟩
              exact ⟨by simp, hlater⟩
            · rintro e s'' ⟨left, hleft, hlater⟩
              exact ⟨left, hleft.trans (List.suffix_cons _ _), hlater⟩

/-- **At a header.**  A reader that has whole frames before it reads the next
of them; when it fails, some pieces of a frame may be left before it. -/
theorem readFrame_boundary {sent payloads : List Bytes} {s : SecureStream}
    (hlen : ∀ p ∈ payloads, p.length ≤ MAX_FRAME) (h : Ahead N sent (messages payloads) s) :
    After (readFrame N s)
      (fun p s' => ∃ rest, payloads = p :: rest ∧ Ahead N sent (messages rest) s')
      (fun _ s' => ∃ left rest, rest <:+ payloads ∧ (∀ t ∈ left, ∃ p ∈ payloads, t ∈ chunks p) ∧
        Ahead N sent (left ++ messages rest) s') := by
  unfold readFrame
  cases payloads with
  | nil =>
      apply After.bind (P := fun _ _ => False)
      · apply After.mono (nextMessage_after h)
        · rintro text s' ⟨later, heq, -⟩
          cases heq
        · exact fun _ s' hahead => ⟨[], [], List.suffix_refl _, by simp, hahead⟩
      · exact fun _ _ hnone => hnone.elim
  | cons p rest =>
      have hp := hlen p List.mem_cons_self
      apply After.bind (P := fun header (s' : SecureStream) =>
        header = leBytes 4 p.length ∧ Ahead N sent (chunks p ++ messages rest) s')
      · apply After.mono (nextMessage_after h)
        · rintro header s' ⟨later, heq, hahead⟩
          obtain ⟨rfl, rfl⟩ := List.cons.inj heq
          exact ⟨rfl, hahead⟩
        · exact fun _ s' hahead => ⟨[], p :: rest, List.suffix_refl _, by simp, hahead⟩
      · rintro header s' ⟨rfl, hahead⟩
        have hpieces := fun t (ht : t ∈ chunks p) => pos_of_mem_chunks ht
        have hcount : (chunks p).length ≤ p.length := by
          have := length_le_flatten hpieces
          rwa [chunks_flatten] at this
        simp only [leBytes_length, leNat_header hp, ne_eq, not_true_eq_false, if_false,
          if_neg (Nat.not_lt.mpr hp)]
        apply After.mono (readRest_after hahead hpieces (by simp [chunks_flatten]) hcount)
        · rintro frame s'' ⟨rfl, hlater⟩
          rw [chunks_flatten, List.nil_append]
          exact ⟨rest, rfl, hlater⟩
        · rintro e s'' ⟨left, hleft, hlater⟩
          refine ⟨left, rest, List.suffix_cons _ _, ?_, hlater⟩
          exact fun t ht => ⟨p, List.mem_cons_self, hleft.subset ht⟩

/-- **In the middle of a frame.**  A piece that is not four bytes long is not
taken as a header. -/
theorem readFrame_leftover {sent later : List Bytes} {text : Bytes} {s : SecureStream}
    (h : Ahead N sent (text :: later) s) (hfour : text.length ≠ 4) :
    After (readFrame N s) (fun _ _ => False)
      (fun _ s' => Ahead N sent (text :: later) s' ∨ Ahead N sent later s') := by
  unfold readFrame
  apply After.bind (P := fun header (s' : SecureStream) =>
    header = text ∧ Ahead N sent later s')
  · apply After.mono (nextMessage_after h)
    · rintro header s' ⟨later', heq, hahead⟩
      obtain ⟨rfl, rfl⟩ := List.cons.inj heq
      exact ⟨rfl, hahead⟩
    · exact fun _ s' hahead => .inl hahead
  · rintro header s' ⟨rfl, hahead⟩
    rw [if_pos hfour]
    exact Or.inr hahead

/-- Up to the first failure the reads return the payloads in order. -/
theorem attempts_before_failure {sent payloads : List Bytes} (k : Nat) {s : SecureStream}
    (hlen : ∀ p ∈ payloads, p.length ≤ MAX_FRAME) (h : Ahead N sent (messages payloads) s) :
    ∃ got, got <+: payloads ∧ (attempts N k s).takeWhile Except.isOk = got.map .ok := by
  induction k generalizing payloads s with
  | zero => exact ⟨[], List.nil_prefix, rfl⟩
  | succ k ih =>
      have hread := readFrame_boundary hlen h
      unfold attempts
      cases hrun : readFrame N s with
      | error e s' => exact ⟨[], List.nil_prefix, rfl⟩
      | ok p s' =>
          obtain ⟨rest, rfl, hahead⟩ := hread.ok hrun
          obtain ⟨got, hgot, hmore⟩ := ih (fun q hq => hlen q (List.mem_cons_of_mem _ hq)) hahead
          refine ⟨p :: got, List.cons_prefix_cons.mpr ⟨rfl, hgot⟩, ?_⟩
          rw [List.takeWhile_cons_of_pos rfl, hmore, List.map_cons]

/-- Where no piece can pass for a header, all reads return payloads, in order:
after a failure the leftover pieces are refused one by one. -/
theorem attempts_in_order {sent left payloads : List Bytes} (k : Nat) {s : SecureStream}
    (hleft : ∀ t ∈ left, t.length ≠ 4)
    (hlen : ∀ p ∈ payloads, p.length ≤ MAX_FRAME ∧ p.length % PLAINTEXT_MSG ≠ 4)
    (h : Ahead N sent (left ++ messages payloads) s) :
    ((attempts N k s).filterMap Except.toOption).Sublist payloads := by
  induction k generalizing left payloads s with
  | zero => exact List.nil_sublist _
  | succ k ih =>
      unfold attempts
      cases left with
      | nil =>
          have hread := readFrame_boundary (fun p hp => (hlen p hp).1) h
          cases hrun : readFrame N s with
          | ok p s' =>
              obtain ⟨rest, rfl, hahead⟩ := hread.ok hrun
              have hrest := @ih [] rest s' (fun _ ht => by cases ht)
                (fun q hq => hlen q (List.mem_cons_of_mem _ hq)) hahead
              exact hrest.cons_cons p
          | error e s' =>
              obtain ⟨left, rest, hrest, hpieces, hahead⟩ := hread.error hrun
              have hrefused : ∀ t ∈ left, t.length ≠ 4 := by
                intro t ht
                obtain ⟨p, hp, hpiece⟩ := hpieces t ht
                rcases length_of_mem_chunks hpiece with hfull | ⟨-, hlast⟩
                · rw [hfull]
                  decide
                · rw [hlast]
                  exact (hlen p hp).2
              exact (ih hrefused (fun p hp => hlen p (hrest.subset hp)) hahead).trans hrest.sublist
      | cons text more =>
          have hread := readFrame_leftover h (hleft text List.mem_cons_self)
          cases hrun : readFrame N s with
          | ok p s' => exact (hread.ok hrun).elim
          | error e s' =>
              rcases hread.error hrun with hsame | hpast
              · exact ih hleft hlen hsame
              · exact ih (fun t ht => hleft t (List.mem_cons_of_mem _ ht)) hlen hpast

/-- **Frames arrive intact.**  Over a cipher that does what is documented a
sequence of payloads of at most `MAX_FRAME` bytes is written without an error
and read back as it was.  Whatever arrives in place of what was written, if
nothing in it is forged, the reads up to the first failure return the payloads
from the first one on; and the reads after a failure return payloads in order,
some left out, when no payload leaves a piece of four bytes. -/
theorem frames_intact (N : Noise) (hN : Documented N) (payloads : List Bytes)
    (hlen : ∀ p ∈ payloads, p.length ≤ MAX_FRAME) :
    ∃ t, forEach payloads (writeFrame N) (.fresh []) = .ok () t ∧
      attempts N payloads.length (.fresh t.outgoing) = payloads.map .ok ∧
      ∀ arriving, Unforged N t.sealed arriving → ∀ k,
        (∃ got, got <+: payloads ∧
          (attempts N k (.fresh arriving)).takeWhile Except.isOk = got.map .ok) ∧
        ((∀ p ∈ payloads, p.length % PLAINTEXT_MSG ≠ 4) →
          ((attempts N k (.fresh arriving)).filterMap Except.toOption).Sublist payloads) := by
  refine ⟨_, writeFrames_run hN hlen _, ?_, ?_⟩
  · exact round_trip hN hlen (by simp [SecureStream.fresh])
  · intro arriving hunforged k
    have hstart : Ahead N (messages payloads) (messages payloads) (.fresh arriving) :=
      ⟨by simpa [SecureStream.fresh] using hunforged, rfl⟩
    refine ⟨attempts_before_failure k hlen hstart, ?_⟩
    intro hfour
    have hleft : ∀ t ∈ ([] : List Bytes), t.length ≠ 4 := fun _ ht => by cases ht
    exact attempts_in_order k hleft (fun p hp => ⟨hlen p hp, hfour p hp⟩) hstart

/-! ## A small cipher -/

/-- The 16 bytes before a text: its number, which stands still at seven, and
its length. -/
def stamp (n : Nat) (text : Bytes) : Bytes := leBytes 8 (min n 7) ++ leBytes 8 text.length

def stamped : Noise where
  encrypt n text := .ok (stamp n text ++ text)
  decrypt n ct :=
    if ct.take 16 = stamp n (ct.drop 16) then .ok (ct.drop 16) else .error (str "decrypt error")

theorem stamp_length (n : Nat) (text : Bytes) : (stamp n text).length = 16 := by
  simp [stamp]

/-- The stamped noise behaves as it is documented. -/
theorem stamped_documented : Documented stamped := by
  intro n text _
  have htake : (stamp n text ++ text).take 16 = stamp n text := List.take_left' (stamp_length _ _)
  have hdrop : (stamp n text ++ text).drop 16 = text := List.drop_left' (stamp_length _ _)
  refine ⟨_, rfl, ?_, ?_⟩
  · rw [List.length_append, stamp_length, Nat.add_comm]
  · simp only [stamped, htake, hdrop, if_pos]

/-- The message that stands at a place of the arriving bytes. -/
def messageAt (arriving : Bytes) (i : Nat) : Bytes :=
  (arriving.drop (i + 4)).take (leNat ((arriving.drop i).take 4))

/-- Numbers up to seven and the places in the bytes are all that has to be
looked at. -/
def Checked (sent : List Bytes) (arriving : Bytes) : Prop :=
  ∀ n < 8, ∀ i < arriving.length, ∀ text ∈ (stamped.decrypt n (messageAt arriving i)).toOption,
    n < 7 ∧ sent[n]? = some text

instance (sent : List Bytes) (arriving : Bytes) : Decidable (Checked sent arriving) :=
  inferInstanceAs (Decidable (∀ n < 8, ∀ i < arriving.length,
    ∀ text ∈ (stamped.decrypt n (messageAt arriving i)).toOption,
      n < 7 ∧ sent[n]? = some text))

/-- What was checked for one stream is unforged. -/
theorem unforged_of_checked {sent : List Bytes} {arriving : Bytes} (h : Checked sent arriving) :
    Unforged stamped sent arriving := by
  rintro n lenBuf ct text hfour hlen ⟨before, after, hin⟩ hdec
  have hdrop : arriving.drop before.length = lenBuf ++ (ct ++ after) := by
    rw [← hin, List.append_assoc, List.append_assoc, List.drop_left]
  have hct : messageAt arriving before.length = ct := by
    rw [messageAt, ← List.drop_drop, hdrop, ← hfour, List.take_left, List.drop_left, hlen,
      List.take_left]
  have hplace : before.length < arriving.length := by
    have := congrArg List.length hin
    simp only [List.length_append] at this
    omega
  have hstamp : ∀ rest, stamp (min n 7) rest = stamp n rest := by
    intro rest
    rw [stamp, stamp, Nat.min_assoc, Nat.min_self]
  have hsame : stamped.decrypt (min n 7) ct = .ok text := by
    rw [← hdec]
    simp only [stamped, hstamp]
  have hfound := h (min n 7) (by omega) before.length hplace text (by rw [hct, hsame]; rfl)
  have hn : min n 7 = n := by omega
  rw [← hn]
  exact hfound.2

/-- An empty payload and a short one. -/
def greeting : List Bytes := [[], str "hello"]

/-- The last message is put in front of the second header, and again after it. -/
def greetingDisturbed : Bytes :=
  wire stamped 0 [leBytes 4 0] ++ wire stamped 2 [str "hello"] ++
    wire stamped 1 [leBytes 4 5, str "hello"]

theorem greetingDisturbed_unforged : Unforged stamped (messages greeting) greetingDisturbed :=
  unforged_of_checked (by decide +kernel)

/-- The frames of the greeting go over; of the disturbed bytes three reads get
both frames, the second one failing in between. -/
theorem frames_intact_greeting :
    attempts stamped 2 (.fresh (wire stamped 0 (messages greeting))) = [.ok [], .ok (str "hello")] ∧
      ((attempts stamped 3 (.fresh greetingDisturbed)).filterMap Except.toOption).Sublist
        greeting := by
  have hlen : ∀ p ∈ greeting, p.length ≤ MAX_FRAME := by decide
  obtain ⟨t, ht, hread, hall⟩ := frames_intact stamped stamped_documented greeting hlen
  rw [writeFrames_run stamped_documented hlen] at ht
  cases ht
  exact ⟨hread, (hall greetingDisturbed greetingDisturbed_unforged 3).2 (by decide)⟩

/-- A payload of four bytes before a longer one. -/
def crossed : List Bytes := [[4, 0, 0, 0], str "hello"]

/-- The last message is moved to the second place. -/
def crossedDisturbed : Bytes :=
  wire stamped 0 [leBytes 4 4] ++ wire stamped 3 [str "hello"] ++
    wire stamped 1 [[4, 0, 0, 0], leBytes 4 5]

/-- **A piece of four bytes passes for a header.**  The first read fails at the
message out of place, before the payload's only piece; the second takes that
piece as a header and the header of the next frame as data. -/
theorem leftover_read_as_header :
    Documented stamped ∧ (∀ p ∈ crossed, p.length ≤ MAX_FRAME) ∧
      ∃ t, forEach crossed (writeFrame stamped) (.fresh []) = .ok () t ∧
        Unforged stamped t.sealed crossedDisturbed ∧
        ∃ got, .ok got ∈ attempts stamped 2 (.fresh crossedDisturbed) ∧ got ∉ crossed := by
  have hlen : ∀ p ∈ crossed, p.length ≤ MAX_FRAME := by decide
  refine ⟨stamped_documented, hlen, _, writeFrames_run stamped_documented hlen _, ?_, ?_⟩
  · exact unforged_of_checked (by decide +kernel)
  · exact ⟨leBytes 4 5, by decide +kernel, by decide⟩

end Secure

end Respawn
