import Respawn.Duplex
import Respawn.Framing
import Respawn.Keychain
import Respawn.Obstacles

/-!
# The listener

`serve_conn` reads the first four bytes of a connection.  They select the
secured protocol, or are the length of a legacy client's first frame; what the
operator has set decides which of the two is served.  Then the request loop
runs on the transport the client chose, until a request cannot be read, is
empty, or is not answered.

The handshake is that of the `snow` crate, a parameter: what its two messages
are, and the transport it ends in.  The store is the one of the moment: the
answer to request number `n` is computed from the tree `world n`.  A client
that is silent for too long and one that closes look the same: the bytes that
arrive end.

* `serveConn_output` — all that goes out, for any bytes that arrive;
* `serveConn_noninterference` — HEAD, the manifests and the objects are all of
  a fabric that shows.
-/

namespace Respawn

open ByteStr FileTree StateLogic Duplex

namespace Listener

open Sync (leBytes leNat leBytes_length leNat_leBytes respondFrame)
open Secure (MAX_FRAME PLAINTEXT_MSG Noise SecureStream Documented)
open Framing (PlainStream)

def PROTO_MAGIC : Bytes := str "SFAB"

def PROTO_VERSION : UInt8 := 2

def MODE_NOISE : UInt8 := 1

def PARAMS : Bytes := str "Noise_NNpsk0_25519_ChaChaPoly_BLAKE2s"

def MAX_HS_MSG : Nat := 1024

/-- What the handshakes use of the `snow` crate.  The ephemeral key of an end
comes from its `seed`; what a handshake message carries is not used. -/
structure Snow where
  Params : Type
  HandshakeState : Type
  parse : Bytes → Except Bytes Params
  buildInitiator : Params → (psk seed : Bytes) → Except Bytes HandshakeState
  buildResponder : Params → (psk seed : Bytes) → Except Bytes HandshakeState
  writeMessage : HandshakeState → Bytes → Except Bytes (Bytes × HandshakeState)
  readMessage : HandshakeState → Bytes → Except Bytes HandshakeState
  intoTransportMode : HandshakeState → Except Bytes Noise

variable (W : Snow)

/-- `map_err(|e| Error::Sync(format!("what: {e}")))` -/
def orSync {α σ : Type} (what : Bytes) : Except Bytes α → EStateM Error σ α
  | .ok a => pure a
  | .error e => throw (.sync (what ++ str ": " ++ e))

/-- Responder side of NNpsk0. -/
def hsResponder (psk seed : Bytes) : Secure.Io Noise := do
  let params ← orSync (str "noise params") (W.parse PARAMS)
  let hs ← orSync (str "noise init") (W.buildResponder params psk seed)
  let first ← Secure.readMsg MAX_HS_MSG
  let hs ← orSync (str "noise handshake rejected") (W.readMessage hs first)
  let out ← orSync (str "noise write") (W.writeMessage hs [])
  Secure.writeMsg out.1
  orSync (str "noise transport") (W.intoTransportMode out.2)

/-- A program for the encrypted stream on a connection that has not been used
for one yet. -/
def overTcp {α : Type} (x : Secure.Io α) : PlainStream.Io α := fun s =>
  match x ⟨[], 0, s.incoming, s.outgoing⟩ with
  | .ok a t => .ok a ⟨t.incoming, t.outgoing⟩
  | .error e t => .error e ⟨t.incoming, t.outgoing⟩

/-- Over a plain socket the encrypted stream sends the same bytes. -/
theorem overTcp_final {α : Type} (x : Secure.Io α) (s : PlainStream) :
    (finalState (overTcp x s)).outgoing =
      (finalState (x ⟨[], 0, s.incoming, s.outgoing⟩)).outgoing := by
  unfold overTcp
  cases x ⟨[], 0, s.incoming, s.outgoing⟩ <;> rfl

def plainEnd : End Error PlainStream Bytes := ⟨PlainStream.readFrame, PlainStream.writeFrame⟩

def secureEnd (N : Noise) : End Error SecureStream Bytes :=
  ⟨Secure.readFrame N, Secure.writeFrame N⟩

variable (X : Crates) (st : Store) (world : Nat → Fs)

/-- `respond_frame` for request number `n`. -/
def respond (n : Nat) (frame : Bytes) : Except Error Bytes := respondFrame X st (world n) frame

/-- The request loop on the plain stream.  Every frame is four bytes at least. -/
def plainLoop (n : Nat) : PlainStream.Io Unit := fun s =>
  plainEnd.serve (respond X st world) List.isEmpty (s.incoming.length + 1) n s

def secureLoop (N : Noise) : Secure.Io Unit := fun s =>
  (secureEnd N).serve (respond X st world) List.isEmpty (s.incoming.length + 1) 0 s

/-- How a connection begins: the sniffing of the selector, and what comes before
the request loop.  Nothing is returned for the plain transport, whose first
request, the one sniffed, is then answered. -/
def openConn (fs : Fs) (psk : Option Bytes) (seed : Bytes) : PlainStream.Io (Option Noise) := do
  let magic ← PlainStream.readExact 4
  if magic = PROTO_MAGIC then do
    let vm ← PlainStream.readExact 2
    if vm ≠ [PROTO_VERSION, MODE_NOISE] then throw (.sync (str "unsupported protocol selector"))
    else match psk with
      | none => throw (.sync (str "secured connection to an unsecured listener"))
      | some key => do
          let N ← overTcp (hsResponder W key seed)
          pure (some N)
  else if psk.isSome then throw (.sync (str "plaintext connection to a --psk listener"))
  else do
    let len := leNat magic
    if len = 0 ∨ len > 64 * 1024 * 1024 then throw (.sync (str "first frame length invalid"))
    else do
      let first ← PlainStream.readExact len
      plainEnd.reply (respondFrame X st fs first)
      pure none

/-- One connection. -/
def serveConn (psk : Option Bytes) (seed : Bytes) : PlainStream.Io Unit := do
  let io ← openConn W X st (world 0) psk seed
  match io with
  | none => plainLoop X st world 1
  | some N => overTcp (secureLoop X st world N)

/-! ## Reading the plain stream -/

/-- What a reader uses up is what it returns, with the bytes before it. -/
theorem readExact_consumes (n : Nat) (s : PlainStream) :
    After (PlainStream.readExact n s)
      (fun piece s' => piece.length = n ∧ s.incoming = piece ++ s'.incoming) (fun _ _ => True) := by
  unfold PlainStream.readExact
  by_cases hshort : s.incoming.length < n
  · rw [if_pos hshort]
    trivial
  · rw [if_neg hshort]
    exact ⟨List.length_take_of_le (Nat.le_of_not_lt hshort), (List.take_append_drop _ _).symm⟩

/-- What remains of a frame is taken from the front of what has arrived. -/
theorem readRest_consumes (k remaining : Nat) (buf : Bytes) (s : PlainStream) :
    After (PlainStream.readRest k remaining buf s)
      (fun frame s' => ∃ piece, frame = buf ++ piece ∧ s.incoming = piece ++ s'.incoming)
      (fun _ _ => True) := by
  induction k generalizing remaining buf s with
  | zero => exact ⟨[], by simp, rfl⟩
  | succ k ih =>
      unfold PlainStream.readRest
      by_cases hmore : remaining > 0
      · rw [if_pos hmore]
        apply After.bind (readExact_consumes _ s)
        rintro piece s' ⟨-, hin⟩
        apply After.mono (ih _ _ _)
        · rintro frame s'' ⟨later, rfl, hin'⟩
          exact ⟨piece ++ later, by rw [List.append_assoc], by rw [hin, hin', List.append_assoc]⟩
        · exact fun _ _ h => h
      · rw [if_neg hmore]
        exact ⟨[], by simp, rfl⟩

/-- **A frame that is read** stands in the bytes with its length before it. -/
theorem readFrame_consumes (s : PlainStream) :
    After (PlainStream.readFrame s)
      (fun frame s' => ∃ lenBuf : Bytes, lenBuf.length = 4 ∧ leNat lenBuf = frame.length ∧
        frame.length ≤ MAX_FRAME ∧ s.incoming = lenBuf ++ frame ++ s'.incoming)
      (fun _ _ => True) := by
  unfold PlainStream.readFrame
  apply After.bind (readExact_consumes 4 s)
  rintro lenBuf s' ⟨hfour, hin⟩
  by_cases hsize : leNat lenBuf > MAX_FRAME
  · simp only [if_pos hsize]
    trivial
  · simp only [if_neg hsize]
    have hlen := @PlainStream.readRest_length (leNat lenBuf) (leNat lenBuf) [] s' le_rfl
    have hbytes := readRest_consumes (leNat lenBuf) (leNat lenBuf) [] s'
    cases hrun : PlainStream.readRest (leNat lenBuf) (leNat lenBuf) [] s' with
    | error e s'' => trivial
    | ok frame s'' =>
        obtain ⟨piece, hpiece, hin'⟩ := hbytes.ok hrun
        have hframe := hlen.ok hrun
        rw [List.nil_append] at hpiece
        subst hpiece
        rw [List.length_nil, Nat.zero_add] at hframe
        refine ⟨lenBuf, hfour, hframe.symm, ?_, ?_⟩
        · omega
        · rw [hin, hin', List.append_assoc]

/-- Set the bytes gone out. -/
def gone (out : Bytes) (s : PlainStream) : PlainStream := { s with outgoing := out }

/-- Reading does not look at what was sent. -/
theorem readExact_commutes (out : Bytes) (n : Nat) :
    Commutes (gone out) (PlainStream.readExact n) := by
  intro s
  unfold PlainStream.readExact gone
  by_cases hshort : s.incoming.length < n
  · rw [if_pos hshort, if_pos hshort]
    rfl
  · rw [if_neg hshort, if_neg hshort]
    rfl

/-- Nor does reading what remains of a frame. -/
theorem readRest_commutes (out : Bytes) (k remaining : Nat) (buf : Bytes) :
    Commutes (gone out) (PlainStream.readRest k remaining buf) := by
  induction k generalizing remaining buf with
  | zero => exact Commutes.pure buf
  | succ k ih =>
      unfold PlainStream.readRest
      apply Commutes.ite
      · exact (readExact_commutes out _).bind fun piece => ih _ _
      · exact Commutes.pure buf

/-- Reading does not look at what has gone out. -/
theorem readFrame_commutes (out : Bytes) : Commutes (gone out) PlainStream.readFrame := by
  apply (readExact_commutes out 4).bind
  intro lenBuf
  exact Commutes.ite (Commutes.throw _) (readRest_commutes out _ _ _)

/-- The plain stream, with what went out before. -/
def plainChannel (before : Bytes) : Channel plainEnd where
  said s outs := s.outgoing = before ++ outs.flatMap PlainStream.wire
  takes _ := true
  read_said {s outs} h := by
    have hsame := (readFrame_commutes s.outgoing).fixed (s := s) rfl
    exact (congrArg PlainStream.outgoing hsame).trans h
  write_taken {s f outs} _ h := by
    refine ⟨_, PlainStream.writeFrame_run f s, ?_, ?_⟩
    · simp [h]
    · intro ins hears
      exact hears.change (readFrame_commutes (s.outgoing ++ PlainStream.wire f))
  write_refused h := by cases h

/-- Something is heard in any bytes. -/
theorem plain_hears (s : PlainStream) :
    ∃ ins, plainEnd.Hears s ins ∧ ins.length ≤ s.incoming.length := by
  refine End.exists_hears (fun s : PlainStream => s.incoming.length) ?_ s
  intro s f s' hread
  obtain ⟨lenBuf, hfour, -, -, hin⟩ := (readFrame_consumes s).ok hread
  rw [hin]
  simp only [List.length_append]
  omega

/-! ## Reading the encrypted stream -/

/-- Set what has been sent. -/
def sentAs (texts : List Bytes) (out : Bytes) (s : SecureStream) : SecureStream :=
  { s with sealed := texts, outgoing := out }

section Encrypted

variable (N : Noise) (texts : List Bytes) (out : Bytes)

/-- Nor does reading a message. -/
theorem readMsg_commutes (cap : Nat) : Commutes (sentAs texts out) (Secure.readMsg cap) := by
  have hexact : ∀ n, Commutes (sentAs texts out) (Secure.readExact n) := by
    intro n s
    unfold Secure.readExact sentAs
    by_cases hshort : s.incoming.length < n
    · rw [if_pos hshort, if_pos hshort]
      rfl
    · rw [if_neg hshort, if_neg hshort]
      rfl
  apply (hexact 4).bind
  intro lenBuf
  exact Commutes.ite (Commutes.throw _) (hexact _)

/-- Nor does reading the next message. -/
theorem nextMessage_commutes : Commutes (sentAs texts out) (Secure.nextMessage N) := by
  apply (readMsg_commutes texts out _).bind
  intro ct s
  unfold Secure.readMessage sentAs
  cases N.decrypt s.received ct <;> rfl

/-- Nor does reading what remains of an encrypted frame. -/
theorem secureRest_commutes (appLen k : Nat) (buf : Bytes) :
    Commutes (sentAs texts out) (Secure.readRest N appLen k buf) := by
  induction k generalizing buf with
  | zero => exact Commutes.pure buf
  | succ k ih =>
      unfold Secure.readRest
      apply Commutes.ite
      · apply (nextMessage_commutes N texts out).bind
        intro text
        exact Commutes.ite (Commutes.throw _) (Commutes.ite (Commutes.throw _) (ih _))
      · exact Commutes.pure buf

/-- Nor does reading a frame. -/
theorem secureFrame_commutes : Commutes (sentAs texts out) (Secure.readFrame N) := by
  apply (nextMessage_commutes N texts out).bind
  intro header
  exact Commutes.ite (Commutes.throw _)
    (Commutes.ite (Commutes.throw _) (secureRest_commutes N texts out _ _ _))

end Encrypted

/-- **A message that is read** stands in the bytes with its length before it. -/
theorem readMsg_shape (cap : Nat) (s : SecureStream) :
    After (Secure.readMsg cap s)
      (fun ct s' => ∃ lenBuf : Bytes, lenBuf.length = 4 ∧ leNat lenBuf = ct.length ∧
        0 < ct.length ∧ ct.length ≤ cap ∧ s.incoming = lenBuf ++ ct ++ s'.incoming ∧
        s' = { s with incoming := s'.incoming })
      (fun _ s' => s'.outgoing = s.outgoing) := by
  have hexact : ∀ n (s : SecureStream), After (Secure.readExact n s)
      (fun piece s' => piece.length = n ∧ s.incoming = piece ++ s'.incoming ∧
        s' = { s with incoming := s'.incoming })
      (fun _ s' => s'.outgoing = s.outgoing) := by
    intro n s
    unfold Secure.readExact
    by_cases hshort : s.incoming.length < n
    · rw [if_pos hshort]
      rfl
    · rw [if_neg hshort]
      exact ⟨List.length_take_of_le (Nat.le_of_not_lt hshort),
        (List.take_append_drop _ _).symm, rfl⟩
  apply After.bind (hexact 4 s)
  rintro lenBuf s' ⟨hfour, hin, hsame⟩
  have hout : s'.outgoing = s.outgoing := by rw [hsame]
  by_cases hbad : leNat lenBuf = 0 ∨ leNat lenBuf > cap
  · simp only [if_pos hbad]
    exact hout
  · simp only [if_neg hbad]
    apply After.mono (hexact _ s')
    · rintro ct s'' ⟨hlen, hin', hsame'⟩
      refine ⟨lenBuf, hfour, hlen.symm, by omega, by omega, ?_, ?_⟩
      · rw [hin, hin', List.append_assoc]
      · rw [hsame', hsame]
    · exact fun _ s'' h => h.trans hout

/-- A message with its length before it is read. -/
theorem readMsg_run {cap : Nat} {s : SecureStream} {lenBuf ct rest : Bytes}
    (hfour : lenBuf.length = 4) (hlen : leNat lenBuf = ct.length) (hpos : 0 < ct.length)
    (hcap : ct.length ≤ cap) (hin : s.incoming = lenBuf ++ ct ++ rest) :
    Secure.readMsg cap s = .ok ct { s with incoming := rest } := by
  have hhead : Secure.readExact 4 s = .ok lenBuf { s with incoming := ct ++ rest } := by
    rw [← hfour]
    exact Secure.readExact_run (by rw [hin, List.append_assoc])
  have hbody : Secure.readExact ct.length { s with incoming := ct ++ rest } =
      .ok ct { s with incoming := rest } :=
    Secure.readExact_run (s := { s with incoming := ct ++ rest }) rfl
  have hgood : ¬ (ct.length = 0 ∨ ct.length > cap) := by omega
  simp only [Secure.readMsg, bind_apply, hhead, hlen, if_neg hgood, hbody]

/-- A message uses up its length at least. -/
theorem nextMessage_consumes (N : Noise) (s : SecureStream) :
    After (Secure.nextMessage N s) (fun _ s' => s'.incoming.length < s.incoming.length)
      (fun _ _ => True) := by
  apply After.bind ((readMsg_shape (PLAINTEXT_MSG + 64) s).mono (fun _ _ h => h)
    fun _ _ _ => trivial)
  rintro ct s' ⟨lenBuf, hfour, -, -, -, hin, -⟩
  have hless : s'.incoming.length < s.incoming.length := by
    rw [hin]
    simp only [List.length_append]
    omega
  unfold Secure.readMessage
  cases N.decrypt s'.received ct with
  | ok text => exact hless
  | error e => trivial

/-- Every encrypted frame that is read shortens what has arrived. -/
theorem secureFrame_consumes (N : Noise) (s : SecureStream) :
    After (Secure.readFrame N s) (fun _ s' => s'.incoming.length < s.incoming.length)
      (fun _ _ => True) := by
  have hrest : ∀ appLen k buf (s : SecureStream), After (Secure.readRest N appLen k buf s)
      (fun _ s' => s'.incoming.length ≤ s.incoming.length) (fun _ _ => True) := by
    intro appLen k
    induction k with
    | zero => exact fun _ _ => le_rfl
    | succ k ih =>
        intro buf s
        unfold Secure.readRest
        by_cases hmore : buf.length < appLen
        · rw [if_pos hmore]
          apply After.bind (nextMessage_consumes N s)
          intro text s' hless
          by_cases hover : buf.length + text.length > appLen
          · rw [if_pos hover]
            trivial
          · by_cases hstall : text.length = 0
            · rw [if_neg hover, if_pos hstall]
              trivial
            · rw [if_neg hover, if_neg hstall]
              exact (ih _ s').mono (fun _ _ h => by omega) fun _ _ h => h
        · rw [if_neg hmore]
          exact le_rfl
  apply After.bind (nextMessage_consumes N s)
  intro header s₁ hless
  by_cases hfour : header.length ≠ 4
  · rw [if_pos hfour]
    trivial
  · rw [if_neg hfour]
    by_cases hsize : leNat header > MAX_FRAME
    · simp only [if_pos hsize]
      trivial
    · simp only [if_neg hsize]
      exact (hrest _ _ _ s₁).mono (fun _ _ hle => by omega) fun _ _ h => h

/-- Something is heard in any bytes. -/
theorem secure_hears (N : Noise) (s : SecureStream) :
    ∃ ins, (secureEnd N).Hears s ins ∧ ins.length ≤ s.incoming.length := by
  refine End.exists_hears (fun s : SecureStream => s.incoming.length) ?_ s
  intro s f s' hread
  exact (secureFrame_consumes N s).ok hread

/-- Something can decrypt what this end encrypts. -/
def Opened (N : Noise) : Prop := ∃ decrypt, Documented ⟨N.encrypt, decrypt⟩

/-- The wire form depends on the encryption alone. -/
theorem wire_encrypt (N : Noise) (decrypt : Nat → Bytes → Except Bytes Bytes) (n : Nat)
    (texts : List Bytes) : Secure.wire ⟨N.encrypt, decrypt⟩ n texts = Secure.wire N n texts := by
  induction texts generalizing n with
  | nil => rfl
  | cons text rest ih =>
      unfold Secure.wire
      rw [ih]

/-- The encrypted stream, with what went out before it was one. -/
def secureChannel {N : Noise} (hN : Opened N) (before : Bytes) : Channel (secureEnd N) where
  said s outs := s.sealed = Secure.messages outs ∧
    s.outgoing = before ++ Secure.wire N 0 (Secure.messages outs)
  takes out := decide (out.length ≤ MAX_FRAME)
  read_said {s outs} h := by
    have hsame := (secureFrame_commutes N s.sealed s.outgoing).fixed (s := s) rfl
    exact ⟨(congrArg SecureStream.sealed hsame).trans h.1,
      (congrArg SecureStream.outgoing hsame).trans h.2⟩
  write_taken {s f outs} hf h := by
    obtain ⟨decrypt, hdoc⟩ := hN
    have hwrite : Secure.writeFrame N f s = _ :=
      Secure.writeFrame_run hdoc (of_decide_eq_true hf) s
    refine ⟨_, hwrite, ⟨?_, ?_⟩, ?_⟩
    · simp [h.1, Secure.messages]
    · simp [h.1, h.2, wire_encrypt, Secure.messages, Secure.wire_append]
    · intro ins hears
      exact hears.change (secureFrame_commutes N _ _)
  write_refused {s f outs} hf h :=
    ⟨_, _, Framing.secure_writeFrame_error (of_decide_eq_false hf) s, h⟩

/-! ## A legacy client -/

section Legacy

variable {W X st world}

/-- Reading sends nothing. -/
theorem readExact_gone {n : Nat} {s s' : PlainStream} {piece : Bytes}
    (h : PlainStream.readExact n s = .ok piece s') : s'.outgoing = s.outgoing := by
  have hsame := (readExact_commutes s.outgoing n).fixed (s := s) rfl
  rw [h] at hsame
  exact (congrArg PlainStream.outgoing hsame).trans rfl

/-- Nor does a read that fails. -/
theorem readExact_lost {n : Nat} {s s' : PlainStream} {e : Error}
    (h : PlainStream.readExact n s = .error e s') : s'.outgoing = s.outgoing := by
  have hsame := (readExact_commutes s.outgoing n).fixed (s := s) rfl
  rw [h] at hsame
  exact (congrArg PlainStream.outgoing hsame).trans rfl

/-- Four bytes and then as many as they say are a frame. -/
theorem readFrame_of_parts {s s₁ s₂ : PlainStream} {lenBuf first : Bytes}
    (hfour : PlainStream.readExact 4 s = .ok lenBuf s₁)
    (hbody : PlainStream.readExact (leNat lenBuf) s₁ = .ok first s₂)
    (hcap : leNat lenBuf ≤ MAX_FRAME) : PlainStream.readFrame s = .ok first s₂ := by
  obtain ⟨hlen, hin⟩ := (readExact_consumes _ s₁).ok hbody
  have hout := readExact_gone hbody
  have hs₂ : s₂ = { s₁ with incoming := s₂.incoming } := by rw [← hout]
  have hrun := @PlainStream.readRest_run first.length [] first s₂.incoming s₁ le_rfl hin
  rw [← hs₂, List.nil_append] at hrun
  rw [← hlen] at hcap
  simp only [PlainStream.readFrame, bind_apply, hfour, ← hlen, if_neg (Nat.not_lt.mpr hcap)]
  exact hrun

/-- Fewer bytes than they say are none. -/
theorem readFrame_of_lost {s s₁ s₂ : PlainStream} {lenBuf : Bytes} {e : Error}
    (hfour : PlainStream.readExact 4 s = .ok lenBuf s₁)
    (hbody : PlainStream.readExact (leNat lenBuf) s₁ = .error e s₂) :
    ∃ e' s', PlainStream.readFrame s = .error e' s' := by
  cases hrun : PlainStream.readFrame s with
  | error e' s' => exact ⟨e', s', rfl⟩
  | ok frame s' =>
      obtain ⟨lenBuf', hfour', hlen, -, hin⟩ := (readFrame_consumes s).ok hrun
      obtain ⟨hfour'', hin'⟩ := (readExact_consumes 4 s).ok hfour
      obtain ⟨rfl, hrest⟩ : lenBuf' = lenBuf ∧ frame ++ s'.incoming = s₁.incoming := by
        apply List.append_inj _ (hfour'.trans hfour''.symm)
        rw [← List.append_assoc, ← hin, hin']
      exfalso
      unfold PlainStream.readExact at hbody
      rw [hlen, ← hrest, if_neg (by simp)] at hbody
      cases hbody

/-- The request loop on the plain stream. -/
theorem plainLoop_output (n : Nat) {s : PlainStream} {ins : List Bytes}
    (hears : plainEnd.Hears s ins) :
    (finalState (plainLoop X st world n s)).outgoing = s.outgoing ++
      (answers (respond X st world) List.isEmpty (fun _ => true) n ins).flatMap
        PlainStream.wire := by
  obtain ⟨ins', hears', hlen⟩ := plain_hears s
  rw [hears.unique hears'] at *
  have hstart : (plainChannel s.outgoing).said s [] := (List.append_nil _).symm
  obtain ⟨t, hrun, hsaid⟩ := (plainChannel s.outgoing).serve_answers (respond X st world)
    List.isEmpty (n := n) hears' hstart (Nat.lt_succ_of_le hlen)
  unfold plainLoop
  rw [hrun]
  exact hsaid

/-- The first frame is answered like the later ones. -/
theorem first_output {first : Bytes} {ins : List Bytes} {s : PlainStream}
    (hfirst : first.isEmpty = false) (hout : s.outgoing = []) (hears : plainEnd.Hears s ins) :
    (finalState ((plainEnd.reply (respond X st world 0 first) >>= fun _ =>
        plainLoop X st world 1) s)).outgoing =
      (answers (respond X st world) List.isEmpty (fun _ => true) 0 (first :: ins)).flatMap
        PlainStream.wire := by
  cases hresp : respond X st world 0 first with
  | error e =>
      simp only [bind_apply, End.reply, finalState, answers, hfirst, hresp, Bool.false_eq_true,
        if_false, List.flatMap_nil]
      exact hout
  | ok out =>
      have hstart : (plainChannel []).said s [] := hout
      obtain ⟨s', hwrite, hsaid, hsame⟩ := (plainChannel []).write_taken (f := out) rfl hstart
      have hreply : plainEnd.reply (.ok out) s = .ok () s' := hwrite
      have hsent : s'.outgoing = PlainStream.wire out := by
        rw [show s'.outgoing = _ from hsaid]
        simp
      rw [answers_cons hfirst hresp rfl, List.flatMap_cons, ← hsent, bind_apply, hreply]
      exact plainLoop_output 1 (hsame ins hears)

/-- What is done about bytes that do not select the secured protocol. -/
theorem serveConn_legacy {seed magic : Bytes} {s s₁ : PlainStream}
    (hfour : PlainStream.readExact 4 s = .ok magic s₁) (hmagic : magic ≠ PROTO_MAGIC) :
    serveConn W X st world none seed s =
      (if leNat magic = 0 ∨ leNat magic > 64 * 1024 * 1024 then
        throw (Error.sync (str "first frame length invalid"))
      else do
        let first ← PlainStream.readExact (leNat magic)
        plainEnd.reply (respond X st world 0 first)
        plainLoop X st world 1) s₁ := by
  unfold serveConn openConn
  simp only [bind_apply, hfour, if_neg hmagic, Option.isSome_none, Bool.false_eq_true, if_false]
  by_cases hbad : leNat magic = 0 ∨ leNat magic > 64 * 1024 * 1024
  · simp only [if_pos hbad]
    rfl
  · simp only [if_neg hbad, bind_apply]
    cases PlainStream.readExact (leNat magic) s₁ with
    | error e s₂ => rfl
    | ok first s₂ =>
        simp only [respond]
        cases plainEnd.reply (respondFrame X st (world 0) first) s₂ <;> rfl

/-- Whoever selects the secured protocol gets no answer. -/
theorem serveConn_selected {seed magic : Bytes} {s s₁ : PlainStream}
    (hfour : PlainStream.readExact 4 s = .ok magic s₁) (hmagic : magic = PROTO_MAGIC) :
    (finalState (serveConn W X st world none seed s)).outgoing = s₁.outgoing := by
  unfold serveConn openConn
  simp only [bind_apply, hfour, if_pos hmagic]
  cases hvm : PlainStream.readExact 2 s₁ with
  | error e s₂ => exact readExact_lost hvm
  | ok vm s₂ =>
      by_cases hsel : vm ≠ [PROTO_VERSION, MODE_NOISE]
      · simp only [if_pos hsel]
        exact readExact_gone hvm
      · simp only [if_neg hsel]
        exact readExact_gone hvm

/-- An unsecured listener sends the answers to the frames it hears, up to the
first one it does not answer, and nothing else, whatever arrives. -/
theorem unsecured_replies (seed arriving : Bytes) :
    ∃ ins, plainEnd.Hears (.fresh arriving) ins ∧
      (finalState (serveConn W X st world none seed (.fresh arriving))).outgoing =
        (answers (respond X st world) List.isEmpty (fun _ => true) 0 ins).flatMap
          PlainStream.wire := by
  cases hfour : PlainStream.readExact 4 (.fresh arriving) with
  | error e s₁ =>
      refine ⟨[], .done (e := e) (t := s₁) ?_, ?_⟩
      · simp only [plainEnd, PlainStream.readFrame, bind_apply, hfour]
      · simp only [serveConn, openConn, bind_apply, hfour, finalState]
        exact readExact_lost hfour
  | ok magic s₁ =>
      have hout : s₁.outgoing = [] := readExact_gone hfour
      by_cases hmagic : magic = PROTO_MAGIC
      · -- as a length the selector is over the limit
        have hbig : leNat magic > MAX_FRAME := by
          rw [hmagic]
          decide
        refine ⟨[], .done (e := .sync (str "frame too large")) (t := s₁) ?_, ?_⟩
        · simp only [plainEnd, PlainStream.readFrame, bind_apply, hfour, if_pos hbig]
          rfl
        · rw [serveConn_selected hfour hmagic, hout]
          rfl
      · rw [serveConn_legacy hfour hmagic]
        by_cases hbad : leNat magic = 0 ∨ leNat magic > 64 * 1024 * 1024
        · rw [if_pos hbad]
          rcases hbad with hzero | hbig
          · obtain ⟨ins, hears, -⟩ := plain_hears s₁
            have hread : PlainStream.readFrame (.fresh arriving) = .ok [] s₁ := by
              simp only [PlainStream.readFrame, bind_apply, hfour, hzero]
              rfl
            exact ⟨[] :: ins, .more hread hears, hout⟩
          · refine ⟨[], .done (e := .sync (str "frame too large")) (t := s₁) ?_, hout⟩
            have hsize : leNat magic > MAX_FRAME := hbig
            simp only [plainEnd, PlainStream.readFrame, bind_apply, hfour, if_pos hsize]
            rfl
        · rw [if_neg hbad, bind_apply]
          obtain ⟨hpos, hcap⟩ := not_or.mp hbad
          cases hbody : PlainStream.readExact (leNat magic) s₁ with
          | error e s₂ =>
              obtain ⟨e', s', hread⟩ := readFrame_of_lost hfour hbody
              exact ⟨[], .done hread, (readExact_lost hbody).trans hout⟩
          | ok first s₂ =>
              have hread := readFrame_of_parts hfour hbody (Nat.not_lt.mp hcap)
              have hfirst : first.isEmpty = false := by
                have hlen := ((readExact_consumes _ s₁).ok hbody).1
                cases first with
                | nil => exact absurd hlen.symm hpos
                | cons b rest => rfl
              obtain ⟨ins, hears, -⟩ := plain_hears s₂
              exact ⟨first :: ins, .more hread hears,
                first_output hfirst ((readExact_gone hbody).trans hout) hears⟩

end Legacy

/-! ## A client of a secured listener -/

/-- The bytes begin with a handshake message that the responder with this key
takes and replies to, which leaves it in this state. -/
inductive Shakes (W : Snow) (key seed : Bytes) : (arriving reply : Bytes) → W.HandshakeState →
    (rest : Bytes) → Prop
  | mk {params : W.Params} {hs₀ hs₁ hs₂ : W.HandshakeState} {lenBuf first reply rest : Bytes}
      (hparse : W.parse PARAMS = .ok params)
      (hbuild : W.buildResponder params key seed = .ok hs₀)
      (hfour : lenBuf.length = 4) (hlen : leNat lenBuf = first.length)
      (hpos : 0 < first.length) (hcap : first.length ≤ MAX_HS_MSG)
      (hread : W.readMessage hs₀ first = .ok hs₁)
      (hwrite : W.writeMessage hs₁ [] = .ok (reply, hs₂))
      (hfits : reply.length ≤ PLAINTEXT_MSG + 64) :
      Shakes W key seed (lenBuf ++ first ++ rest) reply hs₂ rest

/-- What selects the secured protocol. -/
def selector : Bytes := PROTO_MAGIC ++ [PROTO_VERSION, MODE_NOISE]

/-- A message on the wire. -/
def framed (msg : Bytes) : Bytes := leBytes 4 msg.length ++ msg

section Secured

variable {W X st world}

/-- A message that fits is sent framed. -/
theorem writeMsg_run {msg : Bytes} (hfits : msg.length ≤ PLAINTEXT_MSG + 64) (s : SecureStream) :
    Secure.writeMsg msg s = .ok () { s with outgoing := s.outgoing ++ framed msg } := by
  unfold Secure.writeMsg
  rw [if_neg (Nat.not_lt.mpr hfits), framed, ← List.append_assoc]
  rfl

/-- A responder that is greeted replies. -/
theorem hsResponder_run {key seed reply rest : Bytes} {hs : W.HandshakeState} {s : SecureStream}
    (h : Shakes W key seed s.incoming reply hs rest) :
    hsResponder W key seed s = orSync (str "noise transport") (W.intoTransportMode hs)
      { s with incoming := rest, outgoing := s.outgoing ++ framed reply } := by
  generalize hin : s.incoming = arriving at h
  cases h with
  | @mk params hs₀ hs₁ _ lenBuf first _ _ hparse hbuild hfour hlen hpos hcap hread hwrite hfits =>
      have hmsg := readMsg_run hfour hlen hpos hcap hin
      simp only [hsResponder, hparse, hbuild, orSync, bind_apply, pure_apply, hmsg, hread, hwrite,
        writeMsg_run hfits]

/-- A call of the crate changes nothing of the stream. -/
theorem orSync_after {α σ : Type} (what : Bytes) (r : Except Bytes α) (s : σ) :
    After (orSync what r s) (fun a s' => r = .ok a ∧ s' = s) (fun _ s' => s' = s) := by
  cases r with
  | ok a => exact ⟨rfl, rfl⟩
  | error e => rfl

/-- A responder that is not greeted says nothing. -/
theorem hsResponder_silent {key seed : Bytes} {s : SecureStream}
    (h : ¬ ∃ reply hs rest, Shakes W key seed s.incoming reply hs rest) :
    After (hsResponder W key seed s) (fun _ _ => False) (fun _ s' => s'.outgoing = s.outgoing) := by
  have hcall : ∀ {α : Type} (what : Bytes) (r : Except Bytes α) (s' : SecureStream),
      s'.outgoing = s.outgoing → After (orSync what r s') (fun a t => r = .ok a ∧ t = s')
        (fun _ t => t.outgoing = s.outgoing) :=
    fun what r s' hout => (orSync_after what r s').mono (fun _ _ h => h) fun _ _ h => h ▸ hout
  unfold hsResponder
  apply After.bind (hcall _ _ _ rfl)
  rintro params _ ⟨hparse, rfl⟩
  apply After.bind (hcall _ _ _ rfl)
  rintro hs₀ _ ⟨hbuild, rfl⟩
  apply After.bind (readMsg_shape MAX_HS_MSG _)
  rintro first s' ⟨lenBuf, hfour, hlen, hpos, hcap, hin, hsame⟩
  apply After.bind (hcall _ _ s' (by rw [hsame]))
  rintro hs₁ s₁ ⟨hread, heq⟩
  rw [heq]
  apply After.bind (hcall _ _ s' (by rw [hsame]))
  rintro ⟨reply, hs₂⟩ s₂ ⟨hwrite, heq'⟩
  rw [heq']
  have hbig : ¬ reply.length ≤ PLAINTEXT_MSG + 64 := fun hfits =>
    h ⟨reply, hs₂, s'.incoming, hin ▸ .mk hparse hbuild hfour hlen hpos hcap hread hwrite hfits⟩
  apply After.bind (P := fun _ _ => False)
  · simp only [Secure.writeMsg, if_pos (Nat.lt_of_not_le hbig)]
    exact (congrArg SecureStream.outgoing hsame).trans rfl
  · exact fun _ _ hnone => hnone.elim

variable (W) in
/-- A handshake encrypts and decrypts nothing. -/
theorem hsResponder_shape (key seed : Bytes) (s : SecureStream) :
    After (hsResponder W key seed s)
      (fun _ s' => s'.sealed = s.sealed ∧ s'.received = s.received) (fun _ _ => True) := by
  have hcall : ∀ {α : Type} (what : Bytes) (r : Except Bytes α) (t : SecureStream),
      After (orSync what r t) (fun _ t' => t' = t) (fun _ _ => True) :=
    fun what r t => (orSync_after what r t).mono (fun _ _ h => h.2) fun _ _ _ => trivial
  unfold hsResponder
  apply After.bind (hcall _ _ s)
  rintro params s₁ rfl
  apply After.bind (hcall _ _ _)
  rintro hs₀ s₂ rfl
  apply After.bind ((readMsg_shape MAX_HS_MSG s₂).mono (fun _ _ h => h) fun _ _ _ => trivial)
  rintro first t ⟨-, -, -, -, -, -, hsame⟩
  apply After.bind (hcall _ _ t)
  rintro hs₁ t₁ rfl
  apply After.bind (hcall _ _ t₁)
  rintro out t₂ rfl
  apply After.bind (P := fun _ (t' : SecureStream) => t'.sealed = t₂.sealed ∧
    t'.received = t₂.received)
  · unfold Secure.writeMsg
    by_cases hbig : out.1.length > PLAINTEXT_MSG + 64
    · rw [if_pos hbig]
      trivial
    · rw [if_neg hbig]
      exact ⟨rfl, rfl⟩
  · rintro _ t' ⟨hsealed, hreceived⟩
    apply (hcall _ _ t').mono
    · rintro N t'' rfl
      rw [hsealed, hreceived, hsame]
      exact ⟨rfl, rfl⟩
    · exact fun _ _ h => h

/-- The request loop on the encrypted stream. -/
theorem secureLoop_output {N : Noise} (hN : Opened N) {s : SecureStream} (hsealed : s.sealed = [])
    {ins : List Bytes} (hears : (secureEnd N).Hears s ins) :
    (finalState (secureLoop X st world N s)).outgoing = s.outgoing ++ Secure.wire N 0
      (Secure.messages (answers (respond X st world) List.isEmpty
        (fun out => decide (out.length ≤ MAX_FRAME)) 0 ins)) := by
  obtain ⟨ins', hears', hlen⟩ := secure_hears N s
  rw [hears.unique hears'] at *
  have hstart : (secureChannel hN s.outgoing).said s [] := ⟨hsealed, (List.append_nil _).symm⟩
  obtain ⟨t, hrun, hsaid⟩ := (secureChannel hN s.outgoing).serve_answers (respond X st world)
    List.isEmpty (n := 0) hears' hstart (Nat.lt_succ_of_le hlen)
  unfold secureLoop
  rw [hrun]
  exact hsaid.2

/-- A connection that selects the secured protocol. -/
theorem serveConn_secured (key seed arriving : Bytes) :
    (finalState (serveConn W X st world (some key) seed (.fresh (selector ++ arriving)))).outgoing =
      (finalState ((hsResponder W key seed >>= secureLoop X st world)
        ⟨[], 0, arriving, []⟩)).outgoing := by
  have hfour : PlainStream.readExact 4 (.fresh (selector ++ arriving)) =
      .ok PROTO_MAGIC ⟨[PROTO_VERSION, MODE_NOISE] ++ arriving, []⟩ := by
    exact PlainStream.readExact_run (s := .fresh (selector ++ arriving)) (a := PROTO_MAGIC) rfl
  have htwo : PlainStream.readExact 2 ⟨[PROTO_VERSION, MODE_NOISE] ++ arriving, []⟩ =
      .ok [PROTO_VERSION, MODE_NOISE] ⟨arriving, []⟩ :=
    PlainStream.readExact_run (s := ⟨[PROTO_VERSION, MODE_NOISE] ++ arriving, []⟩)
      (a := [PROTO_VERSION, MODE_NOISE]) rfl
  have hshape := hsResponder_shape W key seed ⟨[], 0, arriving, []⟩
  unfold serveConn openConn
  simp only [bind_apply, hfour, if_true, htwo, ne_eq, not_true_eq_false, if_false]
  cases hrun : hsResponder W key seed ⟨[], 0, arriving, []⟩ with
  | error e s =>
      have hover : overTcp (hsResponder W key seed) ⟨arriving, []⟩ =
          .error e ⟨s.incoming, s.outgoing⟩ := by
        unfold overTcp
        rw [hrun]
      rw [hover]
      rfl
  | ok N s =>
      have hover : overTcp (hsResponder W key seed) ⟨arriving, []⟩ =
          .ok N ⟨s.incoming, s.outgoing⟩ := by
        unfold overTcp
        rw [hrun]
      obtain ⟨hsealed, hreceived⟩ := hshape.ok hrun
      have hs : (⟨[], 0, s.incoming, s.outgoing⟩ : SecureStream) = s :=
        congr (congr (congrArg₂ SecureStream.mk hsealed.symm hreceived.symm) rfl) rfl
      rw [hover]
      simp only [pure_apply]
      rw [overTcp_final, hs]

/-- A connection that does not is closed. -/
theorem serveConn_closed {key seed arriving : Bytes} (h : ¬ selector <+: arriving) :
    (finalState (serveConn W X st world (some key) seed (.fresh arriving))).outgoing = [] := by
  unfold serveConn openConn
  simp only [bind_apply]
  cases hfour : PlainStream.readExact 4 (.fresh arriving) with
  | error e s₁ => exact readExact_lost hfour
  | ok magic s₁ =>
      have hout : s₁.outgoing = [] := readExact_gone hfour
      by_cases hmagic : magic = PROTO_MAGIC
      · simp only [if_pos hmagic, bind_apply]
        cases htwo : PlainStream.readExact 2 s₁ with
        | error e s₂ => exact (readExact_lost htwo).trans hout
        | ok vm s₂ =>
            by_cases hsel : vm ≠ [PROTO_VERSION, MODE_NOISE]
            · simp only [if_pos hsel]
              exact (readExact_gone htwo).trans hout
            · obtain ⟨-, hin⟩ := (readExact_consumes 4 _).ok hfour
              obtain ⟨-, hin'⟩ := (readExact_consumes 2 _).ok htwo
              exfalso
              apply h
              refine ⟨s₂.incoming, ?_⟩
              have harrive : arriving = magic ++ s₁.incoming := hin
              rw [harrive, hin', hmagic, not_not.mp hsel, selector, List.append_assoc]
      · simp only [if_neg hmagic, Option.isSome_some, if_true]
        exact hout

/-- A secured listener that is not greeted says nothing. -/
theorem ungreeted_silent {key seed arriving : Bytes}
    (hnone : ¬ ∃ hello reply hs rest, arriving = selector ++ hello ∧
      Shakes W key seed hello reply hs rest) :
    (finalState (serveConn W X st world (some key) seed (.fresh arriving))).outgoing = [] := by
  by_cases hsel : selector <+: arriving
  · obtain ⟨hello, rfl⟩ := hsel
    have hsilent : After (hsResponder W key seed ⟨[], 0, hello, []⟩) (fun _ _ => False)
        (fun _ s' => s'.outgoing = []) := by
      apply hsResponder_silent
      rintro ⟨reply, hs, rest, hshakes⟩
      exact hnone ⟨hello, reply, hs, rest, rfl, hshakes⟩
    rw [serveConn_secured, bind_apply]
    cases hrun : hsResponder W key seed ⟨[], 0, hello, []⟩ with
    | ok N s' => exact (hsilent.ok hrun).elim
    | error e s' => exact hsilent.error hrun
  · exact serveConn_closed hsel

section Greeted

variable {key seed hello reply rest : Bytes} {hs : W.HandshakeState}

/-- When the transport cannot start, the connection ends after the handshake's
reply. -/
theorem greeted_closed (h : Shakes W key seed hello reply hs rest) {e : Bytes}
    (he : W.intoTransportMode hs = .error e) :
    (finalState (serveConn W X st world (some key) seed (.fresh (selector ++ hello)))).outgoing =
      framed reply := by
  rw [serveConn_secured, bind_apply, hsResponder_run (s := ⟨[], 0, hello, []⟩) h, he]
  rfl

/-- A secured listener that is greeted sends its handshake message and then what
it encrypts, the answers. -/
theorem greeted_replies (h : Shakes W key seed hello reply hs rest) {N : Noise} (hN : Opened N)
    (htransport : W.intoTransportMode hs = .ok N) {ins : List Bytes}
    (hears : (secureEnd N).Hears (.fresh rest) ins) :
    (finalState (serveConn W X st world (some key) seed (.fresh (selector ++ hello)))).outgoing =
      framed reply ++ Secure.wire N 0 (Secure.messages (answers (respond X st world) List.isEmpty
        (fun out => decide (out.length ≤ MAX_FRAME)) 0 ins)) := by
  have hears' : (secureEnd N).Hears ⟨[], 0, rest, framed reply⟩ ins :=
    hears.change (secureFrame_commutes N [] (framed reply))
  rw [serveConn_secured, bind_apply, hsResponder_run (s := ⟨[], 0, hello, []⟩) h, htransport]
  exact secureLoop_output hN rfl hears'

end Greeted

/-- **All that goes out of a connection**, for any bytes that arrive.  An
unsecured listener sends the answers to the frames it hears, up to the first one
it does not answer.  A secured one sends nothing but to a connection that
selects the secured protocol and whose handshake message it takes; to that it
sends its handshake message and then only what it encrypts, the answers to the
frames it hears, up to the first one it does not answer or that is over the
limit. -/
theorem serveConn_output (hW : ∀ hs N, W.intoTransportMode hs = .ok N → Opened N)
    (seed arriving : Bytes) :
    (∃ ins, plainEnd.Hears (.fresh arriving) ins ∧
      (finalState (serveConn W X st world none seed (.fresh arriving))).outgoing =
        (answers (respond X st world) List.isEmpty (fun _ => true) 0 ins).flatMap
          PlainStream.wire) ∧
    ∀ key,
      ((¬ ∃ hello reply hs rest, arriving = selector ++ hello ∧
          Shakes W key seed hello reply hs rest) →
        (finalState (serveConn W X st world (some key) seed (.fresh arriving))).outgoing = []) ∧
      ∀ hello reply hs rest, arriving = selector ++ hello →
        Shakes W key seed hello reply hs rest →
        (∀ e, W.intoTransportMode hs = .error e →
          (finalState (serveConn W X st world (some key) seed (.fresh arriving))).outgoing =
            framed reply) ∧
        ∀ N, W.intoTransportMode hs = .ok N →
          ∃ ins, (secureEnd N).Hears (.fresh rest) ins ∧
            (finalState (serveConn W X st world (some key) seed (.fresh arriving))).outgoing =
              framed reply ++ Secure.wire N 0 (Secure.messages
                (answers (respond X st world) List.isEmpty
                  (fun out => decide (out.length ≤ MAX_FRAME)) 0 ins)) := by
  refine ⟨unsecured_replies seed arriving, fun key => ⟨ungreeted_silent, ?_⟩⟩
  rintro hello reply hs rest rfl hshakes
  refine ⟨fun e he => greeted_closed hshakes he, fun N hN => ?_⟩
  obtain ⟨ins, hears, -⟩ := secure_hears N (.fresh rest)
  exact ⟨ins, hears, greeted_replies hshakes (hW hs N hN) hN hears⟩

/-- A handshake whose messages carry what the ends drew at random and a mark of
the key. -/
def smallSnow : Snow where
  Params := Unit
  HandshakeState := Bytes × Bytes
  parse name := if name = PARAMS then .ok () else .error (str "unknown pattern")
  buildInitiator _ psk seed := .ok (psk, seed)
  buildResponder _ psk seed := .ok (psk, seed)
  writeMessage hs _ := .ok (hs.2 ++ hs.1.take 16, hs)
  readMessage hs msg := if msg.drop 32 = hs.1.take 16 then .ok hs else .error (str "decrypt error")
  intoTransportMode _ := .ok Secure.stamped

theorem smallSnow_parse : smallSnow.parse PARAMS = .ok () := by
  simp only [smallSnow, if_true]

theorem smallSnow_reads {hs : Bytes × Bytes} {msg : Bytes} (h : msg.drop 32 = hs.1.take 16) :
    smallSnow.readMessage hs msg = .ok hs := by
  simp only [smallSnow, if_pos h]

theorem smallSnow_rejects {hs : Bytes × Bytes} {msg : Bytes} (h : msg.drop 32 ≠ hs.1.take 16) :
    smallSnow.readMessage hs msg = .error (str "decrypt error") := by
  simp only [smallSnow, if_neg h]

theorem smallSnow_opened (hs : smallSnow.HandshakeState) (N : Noise)
    (h : smallSnow.intoTransportMode hs = .ok N) : Opened N := by
  cases h
  exact ⟨Secure.stamped.decrypt, Secure.stamped_documented⟩

def smallKey : Bytes := List.replicate 32 7

/-- The key's holder, with an ephemeral key of its own, asks for HEAD. -/
def smallHello : Bytes := List.replicate 32 1 ++ List.replicate 16 7

def smallRequest : Bytes :=
  Secure.wire Secure.stamped 0 (Secure.messages [[Sync.OP_GET_HEAD]])

/-- The small handshake goes through. -/
theorem smallHello_shakes : Shakes smallSnow smallKey (List.replicate 32 2)
    (framed smallHello ++ smallRequest) (List.replicate 32 2 ++ List.replicate 16 7)
    (smallKey, List.replicate 32 2) smallRequest := by
  have hfour : (leBytes 4 48).length = 4 := leBytes_length 4 48
  exact .mk smallSnow_parse rfl hfour (by decide) (by decide) (by decide)
    (smallSnow_reads (by decide)) rfl (by decide)

def quietFabric : Fs := Fs.build (Store.fabricNodes ⟨[str "w"]⟩ [])

/-- The holder of the key gets an encrypted answer. -/
theorem serveConn_output_small : ∃ ins,
    (secureEnd Secure.stamped).Hears (.fresh smallRequest) ins ∧
      (finalState (serveConn smallSnow (smallCrates [] [] []) ⟨[str "w"]⟩
        (fun _ => quietFabric) (some smallKey) (List.replicate 32 2)
        (.fresh (selector ++ (framed smallHello ++ smallRequest))))).outgoing =
        framed (List.replicate 32 2 ++ List.replicate 16 7) ++ Secure.wire Secure.stamped 0
          (Secure.messages (answers (respond (smallCrates [] [] []) ⟨[str "w"]⟩
            fun _ => quietFabric) List.isEmpty
            (fun out => decide (out.length ≤ MAX_FRAME)) 0 ins)) :=
  (((serveConn_output smallSnow_opened (List.replicate 32 2)
    (selector ++ (framed smallHello ++ smallRequest))).2 smallKey).2 _ _ _ _ rfl
      smallHello_shakes).2 _ rfl

end Secured

/-! ## What shows of a fabric -/

/-- The nodes of a fabric that a listener looks at. -/
def Shown (st : Store) (q : Path) : Prop :=
  ∃ n ∈ [str "HEAD", str "objects", str "manifests"], ∃ rest, q = st.fabricDir ++ n :: rest

section Shown

variable {W X st} {fs fs' : Fs}

theorem shown_object (c : Hash) : Shown st (st.objectPath c) :=
  ⟨str "objects", by simp, _, by rw [Store.objectPath, Store.fanPath]⟩

theorem shown_manifest (h : Hash) : Shown st (st.manifestPath h) :=
  ⟨str "manifests", by simp, _, by rw [Store.manifestPath, Store.fanPath]⟩

theorem shown_head : Shown st st.headPath := ⟨str "HEAD", by simp, [], rfl⟩

theorem exists_congr {p : Path} (hreal : st.Real fs) (hreal' : st.Real fs')
    (hin : st.fabricDir <+: p) (hnames : ∀ n ∈ p, ValidName n) (hsame : fs'.get p = fs.get p) :
    fs'.exists p = fs.exists p := by
  rw [Bool.eq_iff_iff, hreal'.exists_iff hin hnames, hreal.exists_iff hin hnames, hsame]

theorem fanPath_fabric (sub : Name) (c : Hash) : st.fabricDir <+: st.fanPath sub c :=
  (Store.fabricDir_prefix_fanPath _ _).trans (List.dropLast_prefix _)

/-- What is shown decides which objects there are. -/
theorem hasObject_congr (hreal : st.Real fs) (hreal' : st.Real fs')
    (hsame : ∀ q, Shown st q → fs'.get q = fs.get q) (c : Hash) :
    st.hasObject fs' c = st.hasObject fs c :=
  exists_congr hreal hreal' (fanPath_fabric _ c) (Store.fanPath_names hreal (by decide) c)
    (hsame _ (shown_object c))

/-- What is shown decides which manifests there are. -/
theorem hasManifest_congr (hreal : st.Real fs) (hreal' : st.Real fs')
    (hsame : ∀ q, Shown st q → fs'.get q = fs.get q) (h : Hash) :
    st.hasManifest fs' h = st.hasManifest fs h :=
  exists_congr hreal hreal' (fanPath_fabric _ h) (Store.fanPath_names hreal (by decide) h)
    (hsame _ (shown_manifest h))

/-- The bytes of a manifest that is there, or the error of reading them. -/
theorem manifestBytes_congr (hreal : st.Real fs) (hreal' : st.Real fs')
    (hsame : ∀ q, Shown st q → fs'.get q = fs.get q) {h : Hash}
    (hhas : st.hasManifest fs h = true) :
    st.getManifestBytes fs' h = st.getManifestBytes fs h := by
  obtain ⟨x, hx⟩ := Option.ne_none_iff_exists'.mp ((hreal.exists_iff (fanPath_fabric _ h)
    (Store.fanPath_names hreal (by decide) h)).mp hhas)
  have hmeta : ∀ {g : Fs}, st.Real g → g.get (st.manifestPath h) = some x →
      g.metadata (st.manifestPath h) = .ok x := by
    intro g hg hgx
    apply Fs.metadata_of_get hgx
    rintro t rfl
    exact hg.links _ t (fanPath_fabric _ h) hgx
  unfold Store.getManifestBytes Store.readBlob Fs.read
  rw [hmeta hreal hx, hmeta hreal' ((hsame _ (shown_manifest h)).trans hx)]

/-- An object reads the same, or neither does. -/
theorem object_congr (hreal : st.Real fs) (hreal' : st.Real fs')
    (hsame : ∀ q, Shown st q → fs'.get q = fs.get q) (c : Hash) :
    (st.getObject X fs' c).toOption = (st.getObject X fs c).toOption := by
  have hleaf : fs'.leaf (st.objectPath c) = fs.leaf (st.objectPath c) := by
    unfold Fs.leaf
    rw [hsame _ (shown_object c)]
  cases hrun : st.getObject X fs c with
  | ok data => rw [Revert.getObject_congr hreal hreal' hrun hleaf]
  | error e =>
      cases hrun' : st.getObject X fs' c with
      | error e' => rfl
      | ok data =>
          rw [Revert.getObject_congr hreal' hreal hrun' hleaf.symm] at hrun
          cases hrun

/-- What is sent for an object is what reads, or nothing. -/
theorem objectAnswer_eq (fs : Fs) (body : Bytes) (hlen : body.length = 32) :
    respondFrame X st fs (Sync.OP_GET_OBJECT :: body) =
      .ok (Sync.payloadFrame (((st.getObject X fs ⟨body, hlen⟩).toOption).getD [])) := by
  have hhead : Sync.OP_GET_OBJECT ≠ Sync.OP_GET_HEAD := by decide
  have hmanifest : Sync.OP_GET_OBJECT ≠ Sync.OP_GET_MANIFEST := by decide
  have hhave : Sync.OP_GET_OBJECT ≠ Sync.OP_HAVE := by decide
  unfold respondFrame
  simp only [if_neg hhead, hmanifest, hhave, false_and, dite_false, if_false, hlen, and_self,
    dite_true]
  cases st.getObject X fs ⟨body, hlen⟩ <;> rfl

/-- A response depends on the nodes that show. -/
theorem respondFrame_congr (hreal : st.Real fs) (hreal' : st.Real fs')
    (hsame : ∀ q, Shown st q → fs'.get q = fs.get q) (frame : Bytes) :
    respondFrame X st fs' frame = respondFrame X st fs frame := by
  cases frame with
  | nil => rfl
  | cons op body =>
      by_cases hobject : op = Sync.OP_GET_OBJECT ∧ body.length = 32
      · obtain ⟨rfl, hlen⟩ := hobject
        rw [objectAnswer_eq fs' body hlen, objectAnswer_eq fs body hlen,
          object_congr hreal hreal' hsame]
      · have hhead := Snapshot.head_congr hreal hreal' (hsame _ shown_head)
        unfold respondFrame
        simp only [hhead, hasObject_congr hreal hreal' hsame, hasManifest_congr hreal hreal' hsame,
          dif_neg hobject]
        by_cases hmanifest : op = Sync.OP_GET_MANIFEST ∧ body.length = 32
        · simp only [dif_pos hmanifest]
          by_cases hhas : st.hasManifest fs ⟨body, hmanifest.2⟩ = true
          · simp only [if_pos hhas, manifestBytes_congr hreal hreal' hsame hhas]
          · simp only [if_neg hhas]
        · simp only [dif_neg hmanifest]

/-- **What a listener discloses.**  Whatever a client sends and whatever the
transport, all that happens on the connection is the same for two fabrics that
have the same HEAD, manifests and objects: keys, tombstones, the audit log, the
rules and the files of the tree do not show. -/
theorem serveConn_noninterference {world world' : Nat → Fs} (hreal : ∀ n, st.Real (world n))
    (hreal' : ∀ n, st.Real (world' n))
    (hsame : ∀ n q, Shown st q → (world' n).get q = (world n).get q) (psk : Option Bytes)
    (seed arriving : Bytes) :
    serveConn W X st world' psk seed (.fresh arriving) =
      serveConn W X st world psk seed (.fresh arriving) := by
  have hframe : ∀ n frame, respondFrame X st (world' n) frame = respondFrame X st (world n) frame :=
    fun n => respondFrame_congr (hreal n) (hreal' n) (hsame n)
  have hrespond : respond X st world' = respond X st world := by
    funext n frame
    exact hframe n frame
  unfold serveConn openConn secureLoop plainLoop
  simp only [hrespond, hframe 0]

/-- The secret of the anchors does not show. -/
theorem serveConn_noninterference_secret :
    serveConn smallSnow (smallCrates [] [] []) ⟨[str "w"]⟩
        (fun _ => quietFabric.put (Keychain.secretPath ⟨[str "w"]⟩) (Store.plainFile smallKey))
        none [] (.fresh (PlainStream.wire [Sync.OP_GET_HEAD])) =
      serveConn smallSnow (smallCrates [] [] []) ⟨[str "w"]⟩ (fun _ => quietFabric) none []
        (.fresh (PlainStream.wire [Sync.OP_GET_HEAD])) := by
  apply serveConn_noninterference
  · exact fun _ => Store.Real.of_keys (by decide +kernel) (by decide +kernel)
  · exact fun _ => Store.Real.of_keys (by decide +kernel) (by decide +kernel)
  · rintro _ q ⟨n, hn, rest, rfl⟩
    have hroom : quietFabric.Room (Keychain.secretPath ⟨[str "w"]⟩) := by decide +kernel
    have hother : str "anchor.secret" ∉ [str "HEAD", str "objects", str "manifests"] := by decide
    rw [Fs.get_put hroom, if_neg]
    intro heq
    have hname : n = str "anchor.secret" := (List.cons.inj (List.append_cancel_left heq)).1
    exact hother (hname ▸ hn)

end Shown

end Listener

end Respawn
