import Respawn.Secure

/-!
# The two transports

`FrameIo` is either a `SecureStream` or a `PlainStream`, and the sync protocol
writes and reads frames without knowing which.  A `Transport` is what both
offer: how one end starts, what it has sent, and its two calls.  A transport
delivers a sequence of payloads if the other end reads back what was written
without an error.

The plain stream sends the length as four bytes and then the payload; its
`write_frame` has no limit, and a length that does not fit is cut to its low
32 bits.  Its reader has the limit of the encrypted one.

* `plain_delivers_iff` — the plain stream delivers what respects the limit;
* `same_contract_iff` — the two transports agree on the same condition.
-/

namespace Respawn

open ByteStr StateLogic

namespace Framing

open Sync (leBytes leNat leNat_leBytes leBytes_length)
open Secure (MAX_FRAME Noise SecureStream Documented)

/-- The legacy transport: bytes to come and bytes gone out. -/
structure PlainStream where
  incoming : Bytes
  outgoing : Bytes

namespace PlainStream

def fresh (arriving : Bytes) : PlainStream := ⟨arriving, []⟩

abbrev Io := EStateM Error PlainStream

/-- `read_exact`: what is left is gone when the peer closes too early. -/
def readExact (n : Nat) : Io Bytes := fun s =>
  if s.incoming.length < n then .error (.io .other) { s with incoming := [] }
  else .ok (s.incoming.take n) { s with incoming := s.incoming.drop n }

def writeAll (data : Bytes) : Io Unit := fun s =>
  .ok () { s with outgoing := s.outgoing ++ data }

/-- What the buffer of `read_frame` grows by. -/
def READ_PIECE : Nat := 256 * 1024

/-- The loop of `read_frame`.  Every turn reads a byte at least, so `remaining`
turns are enough (`readRest_length`). -/
def readRest : Nat → Nat → Bytes → Io Bytes
  | 0, _, buf => pure buf
  | k + 1, remaining, buf =>
      if remaining > 0 then do
        let n := min remaining READ_PIECE
        let piece ← readExact n
        readRest k (remaining - n) (buf ++ piece)
      else pure buf

def readFrame : Io Bytes := do
  let lenBuf ← readExact 4
  let len := leNat lenBuf
  if len > MAX_FRAME then throw (.sync (str "frame too large"))
  else readRest len len []

/-- `payload.len() as u32` keeps the low 32 bits. -/
def writeFrame (payload : Bytes) : Io Unit := do
  writeAll (leBytes 4 (payload.length % 2 ^ 32))
  writeAll payload

/-- What one frame puts on the wire. -/
def wire (payload : Bytes) : Bytes := leBytes 4 (payload.length % 2 ^ 32) ++ payload

/-! ## Its calls -/

/-- Nothing is refused. -/
theorem writeFrame_run (payload : Bytes) (s : PlainStream) :
    writeFrame payload s = .ok () { s with outgoing := s.outgoing ++ wire payload } := by
  simp only [writeFrame, bind_apply, writeAll, wire, List.append_assoc]

/-- Writing payloads puts their wire forms on the outgoing side, in order. -/
theorem writeFrames_run (payloads : List Bytes) (s : PlainStream) :
    forEach payloads writeFrame s =
      .ok () { s with outgoing := s.outgoing ++ payloads.flatMap wire } := by
  induction payloads generalizing s with
  | nil => simp [forEach]
  | cons p rest ih =>
      simp only [forEach, bind_apply, writeFrame_run, ih, List.flatMap_cons, List.append_assoc]

/-- A read takes exactly what it was asked for. -/
theorem readExact_run {s : PlainStream} {a b : Bytes} (h : s.incoming = a ++ b) :
    readExact a.length s = .ok a { s with incoming := b } := by
  have hlen : ¬ s.incoming.length < a.length := by
    rw [h, List.length_append]
    omega
  rw [readExact, if_neg hlen, h, List.take_left, List.drop_left]

/-- A read is as long as it was asked to be. -/
theorem readExact_length (n : Nat) (s : PlainStream) :
    After (readExact n s) (fun piece _ => piece.length = n) (fun _ _ => True) := by
  unfold readExact
  by_cases hshort : s.incoming.length < n
  · rw [if_pos hshort]
    trivial
  · rw [if_neg hshort]
    exact List.length_take_of_le (Nat.le_of_not_lt hshort)

/-- A loop that ends has all the bytes, so it never ends for want of turns. -/
theorem readRest_length {k remaining : Nat} {buf : Bytes} {s : PlainStream} (hk : remaining ≤ k) :
    After (readRest k remaining buf s) (fun frame _ => frame.length = buf.length + remaining)
      (fun _ _ => True) := by
  have hpiece : 0 < READ_PIECE := by decide
  induction k generalizing remaining buf s with
  | zero =>
      rw [Nat.le_zero.mp hk]
      rfl
  | succ k ih =>
      unfold readRest
      by_cases hmore : remaining > 0
      · rw [if_pos hmore]
        apply After.bind (readExact_length _ s)
        intro piece s' hlen
        apply (@ih (remaining - min remaining READ_PIECE) (buf ++ piece) s' (by omega)).mono
        · intro frame _ hframe
          rw [hframe, List.length_append, hlen]
          omega
        · exact fun _ _ h => h
      · rw [if_neg hmore]
        have hzero : remaining = 0 := by omega
        rw [hzero]
        rfl

/-- The pieces of a frame are put together. -/
theorem readRest_run {k : Nat} {buf payload rest : Bytes} {s : PlainStream}
    (hk : payload.length ≤ k) (hs : s.incoming = payload ++ rest) :
    readRest k payload.length buf s = .ok (buf ++ payload) { s with incoming := rest } := by
  have hpiece : 0 < READ_PIECE := by decide
  induction k generalizing buf payload s with
  | zero =>
      obtain rfl := List.length_eq_zero_iff.mp (Nat.le_zero.mp hk)
      rw [List.append_nil, ← List.nil_append rest, ← hs]
      rfl
  | succ k ih =>
      unfold readRest
      by_cases hmore : payload.length > 0
      · rw [if_pos hmore]
        have hsplit := List.take_append_drop (min payload.length READ_PIECE) payload
        have hfirst : (payload.take (min payload.length READ_PIECE)).length =
            min payload.length READ_PIECE := List.length_take_of_le (Nat.min_le_left _ _)
        have hleft : (payload.drop (min payload.length READ_PIECE)).length =
            payload.length - min payload.length READ_PIECE := List.length_drop
        have hread : readExact (min payload.length READ_PIECE) s =
            .ok (payload.take (min payload.length READ_PIECE)) { s with
              incoming := payload.drop (min payload.length READ_PIECE) ++ rest } := by
          have hin : s.incoming = payload.take (min payload.length READ_PIECE) ++
              (payload.drop (min payload.length READ_PIECE) ++ rest) := by
            rw [← List.append_assoc, hsplit, hs]
          have hrun := readExact_run hin
          rwa [hfirst] at hrun
        have hgo := @ih (buf ++ payload.take (min payload.length READ_PIECE))
          (payload.drop (min payload.length READ_PIECE))
          { s with incoming := payload.drop (min payload.length READ_PIECE) ++ rest }
          (by omega) rfl
        rw [hleft, List.append_assoc, hsplit] at hgo
        simp only [bind_apply, hread, hgo]
      · rw [if_neg hmore]
        have hnil : payload = [] := List.length_eq_zero_iff.mp (by omega)
        subst hnil
        rw [List.append_nil, ← List.nil_append rest, ← hs]
        rfl

/-- A frame within the limit is read whole. -/
theorem readFrame_run {payload rest : Bytes} {s : PlainStream} (hlen : payload.length ≤ MAX_FRAME)
    (hs : s.incoming = wire payload ++ rest) :
    readFrame s = .ok payload { s with incoming := rest } := by
  have hcap : MAX_FRAME < 2 ^ 32 := by decide
  have hlow : payload.length % 2 ^ 32 = payload.length := Nat.mod_eq_of_lt (by omega)
  have hnum : leNat (leBytes 4 payload.length) = payload.length :=
    leNat_leBytes (by omega)
  have hin : s.incoming = leBytes 4 payload.length ++ (payload ++ rest) := by
    rw [hs, wire, hlow, List.append_assoc]
  have hhead : readExact 4 s =
      .ok (leBytes 4 payload.length) { s with incoming := payload ++ rest } := by
    have hrun := readExact_run hin
    rwa [leBytes_length] at hrun
  have hbody := @readRest_run payload.length [] payload rest
    { s with incoming := payload ++ rest } le_rfl rfl
  have hsize : ¬ payload.length > MAX_FRAME := by omega
  simp only [readFrame, bind_apply, hhead, hnum, if_neg hsize, hbody, List.nil_append]

/-- The reader returns nothing above the limit. -/
theorem readFrame_le (s : PlainStream) :
    After (readFrame s) (fun frame _ => frame.length ≤ MAX_FRAME) (fun _ _ => True) := by
  apply After.bind (P := fun _ _ => True)
  · cases readExact 4 s <;> trivial
  · intro lenBuf s' _
    by_cases hsize : leNat lenBuf > MAX_FRAME
    · simp only [if_pos hsize]
      trivial
    · simp only [if_neg hsize]
      apply (readRest_length le_rfl).mono
      · intro frame _ hframe
        rw [List.length_nil, Nat.zero_add] at hframe
        omega
      · exact fun _ _ h => h

end PlainStream

/-! ## What both offer -/

/-- A variant of `FrameIo`: an end with the bytes that will arrive, the bytes
it has sent, and its calls. -/
structure Transport (σ : Type) where
  fresh : Bytes → σ
  outgoing : σ → Bytes
  readFrame : EStateM Error σ Bytes
  writeFrame : Bytes → EStateM Error σ Unit

def plain : Transport PlainStream where
  fresh := PlainStream.fresh
  outgoing := PlainStream.outgoing
  readFrame := PlainStream.readFrame
  writeFrame := PlainStream.writeFrame

def secure (N : Noise) : Transport SecureStream where
  fresh := SecureStream.fresh
  outgoing := SecureStream.outgoing
  readFrame := Secure.readFrame N
  writeFrame := Secure.writeFrame N

namespace Transport

variable {σ τ : Type} (T : Transport σ) (U : Transport τ)

/-- The outcomes of `k` reads, made whatever the earlier ones returned. -/
def reads : Nat → σ → List (Except Error Bytes)
  | 0, _ => []
  | k + 1, s =>
      match T.readFrame s with
      | .ok payload s' => .ok payload :: reads k s'
      | .error e s' => .error e :: reads k s'

/-- Which payloads are taken, each one offered whatever became of the earlier
ones. -/
def accepts : List Bytes → σ → List Bool
  | [], _ => []
  | p :: rest, s => succeeded (T.writeFrame p s) :: accepts rest (finalState (T.writeFrame p s))

/-- Once all the payloads are written, the other end reads these. -/
def Delivers (payloads : List Bytes) : Prop :=
  ∀ t, forEach payloads T.writeFrame (T.fresh []) = .ok () t →
    T.reads payloads.length (T.fresh (T.outgoing t)) = payloads.map .ok

/-- The same payloads are taken, and both transports deliver them. -/
def SameContract (payloads : List Bytes) : Prop :=
  T.accepts payloads (T.fresh []) = U.accepts payloads (U.fresh []) ∧
    T.Delivers payloads ∧ U.Delivers payloads

/-- What is read is bounded if one frame is. -/
theorem le_of_mem_reads {cap k : Nat} {s : σ} {p : Bytes}
    (hread : ∀ s, After (T.readFrame s) (fun frame _ => frame.length ≤ cap) (fun _ _ => True))
    (hp : .ok p ∈ T.reads k s) : p.length ≤ cap := by
  induction k generalizing s with
  | zero => cases hp
  | succ k ih =>
      have hone := hread s
      unfold reads at hp
      cases hrun : T.readFrame s with
      | ok payload s' =>
          rw [hrun] at hp hone
          rcases List.mem_cons.mp hp with hfirst | hlater
          · cases hfirst
            exact hone
          · exact ih hlater
      | error e s' =>
          rw [hrun] at hp
          rcases List.mem_cons.mp hp with hfirst | hlater
          · cases hfirst
          · exact ih hlater

end Transport

/-! ## Which payloads are taken -/

/-- The plain transport takes every payload. -/
theorem plain_accepts (payloads : List Bytes) (s : PlainStream) :
    plain.accepts payloads s = payloads.map fun _ => true := by
  induction payloads generalizing s with
  | nil => rfl
  | cons p rest ih =>
      have hfirst : plain.writeFrame p s = _ := PlainStream.writeFrame_run p s
      simp only [Transport.accepts, hfirst, succeeded, ih, List.map_cons]

/-- A payload above the cap is refused before anything is sent. -/
theorem secure_writeFrame_error {N : Noise} {p : Bytes} (hlen : ¬ p.length ≤ MAX_FRAME)
    (s : SecureStream) :
    (secure N).writeFrame p s = .error (.sync (str "frame too large")) s := by
  have hsize : p.length > MAX_FRAME := Nat.lt_of_not_le hlen
  change Secure.writeFrame N p s = _
  rw [Secure.writeFrame, if_pos hsize]
  rfl

/-- The encrypted stream takes what respects the limit. -/
theorem secure_accepts {N : Noise} (hN : Documented N) (payloads : List Bytes) (s : SecureStream) :
    (secure N).accepts payloads s = payloads.map fun p => decide (p.length ≤ MAX_FRAME) := by
  induction payloads generalizing s with
  | nil => rfl
  | cons p rest ih =>
      rw [Transport.accepts, ih, List.map_cons]
      congr 1
      by_cases hlen : p.length ≤ MAX_FRAME
      · have hrun : (secure N).writeFrame p s = _ := Secure.writeFrame_run hN hlen s
        rw [hrun, decide_eq_true hlen]
        rfl
      · rw [secure_writeFrame_error hlen, decide_eq_false hlen]
        rfl

/-! ## What is delivered -/

/-- What the plain transport reads from the wire forms of payloads under the
cap. -/
theorem plain_reads {payloads : List Bytes} (hlen : ∀ p ∈ payloads, p.length ≤ MAX_FRAME)
    {s : PlainStream} (hs : s.incoming = payloads.flatMap PlainStream.wire) :
    plain.reads payloads.length s = payloads.map .ok := by
  induction payloads generalizing s with
  | nil => rfl
  | cons p rest ih =>
      have hfirst : plain.readFrame s = _ :=
        PlainStream.readFrame_run (hlen p List.mem_cons_self) hs
      simp only [List.length_cons, Transport.reads, hfirst, List.map_cons, List.cons.injEq,
        true_and]
      exact ih (fun q hq => hlen q (List.mem_cons_of_mem _ hq)) rfl

/-- **The plain stream delivers what respects the limit**, and nothing else:
it takes the rest too, but its reader refuses what is longer, or gets less of
it. -/
theorem plain_delivers_iff (payloads : List Bytes) :
    plain.Delivers payloads ↔ ∀ p ∈ payloads, p.length ≤ MAX_FRAME := by
  have hwritten : forEach payloads plain.writeFrame (plain.fresh []) = _ :=
    PlainStream.writeFrames_run payloads (.fresh [])
  constructor
  · intro hdelivers p hp
    have hreads := hdelivers _ hwritten
    apply plain.le_of_mem_reads PlainStream.readFrame_le
    rw [hreads]
    exact List.mem_map.mpr ⟨p, hp, rfl⟩
  · intro hlen t ht
    rw [hwritten] at ht
    cases ht
    exact plain_reads hlen rfl

/-- What the encrypted transport reads are the attempts on its stream. -/
theorem secure_reads (N : Noise) (k : Nat) (s : SecureStream) :
    (secure N).reads k s = Secure.attempts N k s := by
  induction k generalizing s with
  | zero => rfl
  | succ k ih =>
      have hframe : (secure N).readFrame s = Secure.readFrame N s := rfl
      rw [Transport.reads, Secure.attempts, hframe]
      cases Secure.readFrame N s with
      | ok payload s' => simp only [ih]
      | error e s' => simp only [ih]

/-- What the encrypted stream has written is within the limit. -/
theorem le_of_secure_written {N : Noise} {payloads : List Bytes} {s t : SecureStream}
    (h : forEach payloads (secure N).writeFrame s = .ok () t) :
    ∀ p ∈ payloads, p.length ≤ MAX_FRAME := by
  induction payloads generalizing s with
  | nil => simp
  | cons p rest ih =>
      obtain ⟨_, s', hfirst, hrest⟩ := bind_eq_ok.mp h
      intro q hq
      rcases List.mem_cons.mp hq with rfl | hlater
      · by_contra hlen
        rw [secure_writeFrame_error hlen] at hfirst
        cases hfirst
      · exact ih hrest q hlater

/-- The encrypted stream delivers whatever it takes. -/
theorem secure_delivers {N : Noise} (hN : Documented N) (payloads : List Bytes) :
    (secure N).Delivers payloads := by
  intro t ht
  have hlen := le_of_secure_written ht
  have hrun : forEach payloads (secure N).writeFrame ((secure N).fresh []) = _ :=
    Secure.writeFrames_run hN hlen (.fresh [])
  rw [hrun] at ht
  cases ht
  rw [secure_reads]
  exact Secure.round_trip hN hlen (by simp [secure, SecureStream.fresh])

/-- **One framing contract, up to the limit.**  The plain and the encrypted
transport take the same payloads of a sequence, and both deliver it, exactly
when no payload is longer than `MAX_FRAME`. -/
theorem same_contract_iff (N : Noise) (hN : Documented N) (payloads : List Bytes) :
    plain.SameContract (secure N) payloads ↔ ∀ p ∈ payloads, p.length ≤ MAX_FRAME := by
  constructor
  · intro hsame
    exact (plain_delivers_iff payloads).mp hsame.2.1
  · intro hlen
    refine ⟨?_, (plain_delivers_iff payloads).mpr hlen, secure_delivers hN payloads⟩
    rw [plain_accepts, secure_accepts hN]
    apply List.map_congr_left
    intro p hp
    exact (decide_eq_true (hlen p hp)).symm

theorem same_contract_greeting : plain.SameContract (secure Secure.stamped) Secure.greeting :=
  (same_contract_iff Secure.stamped Secure.stamped_documented Secure.greeting).mpr (by decide)

/-- **One byte over the limit.**  The plain stream takes the payload, the
encrypted one refuses it, and the plain reader refuses it too. -/
theorem oversized_taken_by_plain :
    Documented Secure.stamped ∧
      plain.accepts [List.replicate (MAX_FRAME + 1) 0] (plain.fresh []) = [true] ∧
      (secure Secure.stamped).accepts [List.replicate (MAX_FRAME + 1) 0]
        ((secure Secure.stamped).fresh []) = [false] ∧
      ¬ plain.Delivers [List.replicate (MAX_FRAME + 1) 0] ∧
      ¬ plain.SameContract (secure Secure.stamped) [List.replicate (MAX_FRAME + 1) 0] := by
  have hlen : ¬ (List.replicate (MAX_FRAME + 1) (0 : UInt8)).length ≤ MAX_FRAME := by
    rw [List.length_replicate]
    omega
  have hplain := plain_accepts [List.replicate (MAX_FRAME + 1) 0] (plain.fresh [])
  have hsecure := secure_accepts Secure.stamped_documented [List.replicate (MAX_FRAME + 1) 0]
    ((secure Secure.stamped).fresh [])
  rw [List.map_singleton, decide_eq_false hlen] at hsecure
  refine ⟨Secure.stamped_documented, hplain, hsecure, ?_, ?_⟩
  · intro hdelivers
    exact hlen ((plain_delivers_iff _).mp hdelivers _ List.mem_cons_self)
  · intro hsame
    have htaken := hsame.1
    rw [hplain, hsecure] at htaken
    cases htaken

end Framing

end Respawn
