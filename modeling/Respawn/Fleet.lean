import Respawn.Commands

/-!
# Fleet orders

`order` mints a signed order to land on a snapshot; `apply` checks one that was
carried here, pulls its target if it is missing, and reverts to it.  The file
`.respawn/fleet_seen` notes the newest time stamp of an order applied, and an
order older than that is refused.

An order as old as the newest one is not: `apply` refuses only what is older.
So an order that was applied takes effect again when it is presented while no
newer one was applied, and `replay_refused` is about all other runs.
-/

namespace Respawn

open ByteStr FileTree StateLogic

namespace Fleet

/-- What an order says. -/
structure OrderPayload where
  kind : Bytes
  fabricId : Bytes
  target : Bytes
  ts : UInt64
  nonce : Bytes
  deriving DecidableEq

/-- A signed order. -/
structure FleetOrder where
  format : Bytes
  pubkey : Bytes
  payload : Bytes
  sig : Bytes
  deriving DecidableEq

end Fleet

/-- The functions of other crates on orders: the JSON codecs, which bytes are a
verification key, and the verification of a signature under a key. -/
structure FleetCrates extends Crates where
  orderToJson : Fleet.FleetOrder → Bytes
  orderOfJson : Bytes → Except Bytes Fleet.FleetOrder
  orderPayloadToJson : Fleet.OrderPayload → Bytes
  orderPayloadOfJson : Bytes → Except Bytes Fleet.OrderPayload
  isKey : Bytes → Bool
  verify : Bytes → Bytes → Bytes → Bool

namespace Fleet

variable (F : FleetCrates) (st : Store)

def fleetKeyPath : Path := st.fabricDir ++ [str "fleet.pub"]

def seenPath : Path := st.fabricDir ++ [str "fleet_seen"]

/-! ## Minting an order -/

/-- Mint a signed order to land on `target`. -/
def order (target : Bytes) (out : Path) : Sys Path := do
  let id ← look (Snapshot.resolve st target)
  let known ← look fun fs => .ok (st.hasManifest fs id)
  if ¬ known then throw (.corrupt (str "target snapshot not in store"))
  else do
    let (raw, _, _) ← Keychain.get st
    let m ← get
    let ts := unixSecs m.clock
    let nonce := hashHex (F.blake3 (decimal ts ++ str ":" ++ decimal m.pid))
    let fabricId ← Anchor.fabricId st
    let payload := F.orderPayloadToJson { kind := str "respawn-fleet-order"
                                          fabricId := fabricId
                                          target := hashHex id
                                          ts := UInt64.ofNat ts
                                          nonce := nonce.take 16 }
    io (createDirAll out.dropLast)
    let tmp ← tmpPath out.dropLast (str "fleet-order")
    io (writeFile tmp (F.orderToJson { format := str "respawn-fleet-order/v1"
                                       pubkey := hexEncode (F.verifyingKey raw.val)
                                       payload := payload
                                       sig := hexEncode (F.sign raw.val payload) }))
    io (rename tmp out)
    pure out

/-! ## Applying an order -/

/-- A decoded record, or the complaint of the codec. -/
def fromJson {α : Type} : Except Bytes α → Except Error α
  | .ok a => .ok a
  | .error e => .error (.corrupt (str "json: " ++ e))

/-- The order in a file and what it says. -/
def readOrder (bytes : Bytes) : Except Error (FleetOrder × OrderPayload) :=
  match fromJson (F.orderOfJson bytes) with
  | .error e => .error e
  | .ok o =>
      if o.format ≠ str "respawn-fleet-order/v1" then
        .error (.corrupt (str "unknown fleet order format"))
      else match fromJson (F.orderPayloadOfJson o.payload) with
        | .error e => .error e
        | .ok payload =>
            if payload.kind ≠ str "respawn-fleet-order" then
              .error (.corrupt (str "payload kind mismatch"))
            else .ok (o, payload)

/-- The signer must be the pinned fleet key, and the signature its own. -/
def checkSigner (o : FleetOrder) (fs : Fs) : Except Error Unit :=
  match fs.readToString (fleetKeyPath st) with
  | .error _ =>
      .error (.corrupt (str "no pinned fleet key — `respawn fleet trust <pubkey>` first"))
  | .ok pinned =>
      if o.pubkey ≠ trim pinned then
        .error (.corrupt (str "fleet order signer is not the pinned fleet key"))
      else match hexDecode o.pubkey with
        | none => .error (.corrupt (str "bad pubkey hex"))
        | some pk =>
            if pk.length ≠ 32 then .error (.corrupt (str "bad pubkey length"))
            else if ¬ F.isKey pk then .error (.corrupt (str "bad pubkey"))
            else match hexDecode o.sig with
              | none => .error (.corrupt (str "bad sig hex"))
              | some sig =>
                  if sig.length ≠ 64 then .error (.corrupt (str "bad sig length"))
                  else if ¬ F.verify pk o.payload sig then
                    .error (.corrupt (str "fleet order signature invalid"))
                  else .ok ()

/-- The newest time stamp noted, zero when there is none. -/
def lastSeen (fs : Fs) : UInt64 :=
  match fs.readToString (seenPath st) with
  | .ok s => (parseU64 (trim s)).getD 0
  | .error _ => 0

/-- Pull the target of an order if it is not here. -/
def fetchTarget (target : Hash) (source : Option (Bytes × Sync.Peer)) : Sys Unit := do
  let present ← look fun fs => .ok (st.hasManifest fs target)
  if present then pure ()
  else match source with
    | none =>
        throw (.corrupt (str "target snapshot not in store — pass --from <peer> to pull it"))
    | some (addr, peer) => do
        let _ ← Sync.pull F.toCrates st addr peer
        pure ()

/-- An order that passed the checks: what it says, the newest time stamp before
it, and its target. -/
structure Accepted where
  payload : OrderPayload
  last : UInt64
  target : Hash

/-- The checks on an order. -/
def accept (orderPath : Path) : Sys Accepted := do
  let bytes ← look fun fs => ioErr (fs.read orderPath)
  let (o, payload) ← look fun _ => readOrder F bytes
  look (checkSigner F st o)
  let fabricId ← Anchor.fabricId st
  if payload.fabricId ≠ fabricId then
    throw (.corrupt (str "fleet order targets a different fabric"))
  else do
    let last ← look fun fs => .ok (lastSeen st fs)
    if payload.ts < last then
      throw (.corrupt (str "stale fleet order (ts " ++ decimal payload.ts.toNat ++
        str " < last applied " ++ decimal last.toNat ++ str ") — replay refused"))
    else do
      let target ← look fun _ => parseHash payload.target
      pure ⟨payload, last, target⟩

/-- The result of a gated revert, or the refusal. -/
def granted {α β : Type} : α × Option β → Sys β
  | (_, some r) => pure r
  | (_, none) => throw (.corrupt
      (str "fleet revert refused: un-snapshotted changes (retry with --force)"))

/-- Revert to the target and note the order. -/
def land (a : Accepted) (force : Bool) : Sys Hash := do
  let m ← look fun fs => Snapshot.load F.toCrates st fs a.target
  let checked ← Revert.checkThenApply F.toCrates st st.root m false force
  let _ ← granted checked
  st.setHead (some a.target)
  io (writeFile (seenPath st) (decimal (max a.payload.ts a.last).toNat ++ [10]))
  Audit.record F.toCrates st (str "fleet-revert")
    (str "order " ++ a.payload.nonce ++ str " -> " ++ short a.target)
  pure a.target

/-- Apply a signed order: verify signer and fabric, pull the target if it is
missing, revert. -/
def apply (orderPath : Path) (source : Option (Bytes × Sync.Peer)) (force : Bool) :
    Sys Hash := do
  let a ← accept F st orderPath
  fetchTarget F st a.target source
  land F st a force

/-! ## What the time stamp noted does -/

variable {F st} {m : Machine}

/-- The newer of two time stamps. -/
theorem le_newer (a b : UInt64) : a ≤ max a b ∧ b ≤ max a b := by
  have hmax : max a b = if a ≤ b then b else a := rfl
  rw [hmax]
  by_cases h : a ≤ b
  · rw [if_pos h]
    exact ⟨h, UInt64.le_refl b⟩
  · rw [if_neg h]
    exact ⟨UInt64.le_refl a, UInt64.le_of_lt (UInt64.not_le.mp h)⟩

/-- What is noted in a file. -/
theorem lastSeen_of_file {fs : Fs} {n : UInt64} {d : FileData}
    (hfile : fs.get (seenPath st) = some (.file d)) (hbytes : d.bytes = decimal n.toNat ++ [10]) :
    lastSeen st fs = n := by
  have hutf8 : validUtf8 (decimal n.toNat ++ [10]) = true := by
    apply validUtf8_ascii
    intro b hb
    rcases List.mem_append.mp hb with hdigit | hline
    · exact UInt8.lt_of_le_of_lt (decimal_digit hdigit).2 (by decide)
    · exact List.mem_singleton.mp hline ▸ (by decide)
  unfold lastSeen Fs.readToString
  rw [Fs.read_of_get hfile, hbytes]
  simp only [hutf8, if_true, parseU64_line, Option.getD_some]

/-- The file decides what was noted. -/
theorem lastSeen_congr {fs fs' : Fs} {d : FileData}
    (hfile : fs.get (seenPath st) = some (.file d))
    (hsame : fs'.get (seenPath st) = fs.get (seenPath st)) : lastSeen st fs' = lastSeen st fs := by
  unfold lastSeen Fs.readToString
  rw [Fs.read_of_get hfile, Fs.read_of_get (hsame.trans hfile)]

/-- **An order that passes the checks** is not older than what is noted, and
nothing changed but the fabric's identity. -/
theorem accept_after {orderPath : Path} (hreal : st.Real m.fs) :
    After (accept F st orderPath m)
      (fun a m' => st.Touched (st.Within [str "fabric_id"]) m.fs m'.fs ∧
        a.last = lastSeen st m'.fs ∧ ¬ a.payload.ts < a.last ∧
        ∃ bytes o, m.fs.read orderPath = .ok bytes ∧ readOrder F bytes = .ok (o, a.payload))
      (fun _ m' => st.Touched (st.Within [str "fabric_id"]) m.fs m'.fs) := by
  have hsame := Store.Touched.refl (S := st.Within [str "fabric_id"]) hreal
  unfold accept
  apply after_look_bind
  · intro bytes hbytes
    have hread : m.fs.read orderPath = .ok bytes := by
      cases h : m.fs.read orderPath with
      | ok b =>
          rw [h] at hbytes
          exact congrArg Except.ok (Except.ok.inj hbytes)
      | error e =>
          rw [h] at hbytes
          cases hbytes
    apply after_look_bind
    · intro parsed hparsed
      obtain ⟨o, payload⟩ := parsed
      apply after_look_bind
      · intro _ _
        apply After.bind (Anchor.fabricId_touching m hreal)
        intro fabricId m₁ h₁
        by_cases hid : payload.fabricId ≠ fabricId
        · rw [if_pos hid]
          exact h₁
        rw [if_neg hid, bind_apply, look_get]
        simp only
        by_cases hstale : payload.ts < lastSeen st m₁.fs
        · rw [if_pos hstale]
          exact h₁
        rw [if_neg hstale]
        apply after_look_bind
        · intro target _
          exact ⟨h₁, rfl, hstale, bytes, o, hread, hparsed⟩
        · intro _ _
          exact h₁
      · intro _ _
        exact hsame
    · intro _ _
      exact hsame
  · intro _ _
    exact hsame

/-- Fetching a target touches what a pull touches. -/
theorem fetchTarget_touching (target : Hash) (source : Option (Bytes × Sync.Peer)) :
    st.Touching (st.Within [str "objects", str "manifests", str "remotes"])
      (fetchTarget F st target source) := by
  unfold fetchTarget
  apply Store.Touching.look.bind
  intro present
  cases present with
  | true => exact Store.Touching.pure _
  | false =>
      cases source with
      | none => exact Store.Touching.throw _
      | some s =>
          apply (Sync.pull_touching _ _).bind
          intro _
          exact Store.Touching.pure _

/-! ## Runs -/

/-- What a file says as an order. -/
def OrderOf (F : FleetCrates) (bytes : Bytes) (p : OrderPayload) : Prop :=
  ∃ o, readOrder F bytes = .ok (o, p)

/-- One of the orders applied is newer than the one in this file. -/
def Superseded (F : FleetCrates) (done : List Bytes) (bytes : Bytes) : Prop :=
  ∃ p, OrderOf F bytes p ∧ ∃ newer ∈ done, ∃ p', OrderOf F newer p' ∧ p.ts < p'.ts

/-- No entry of the manifest is the note of the newest time stamp. -/
def Spares (st : Store) (mf : Manifest) : Prop :=
  ∀ fe ∈ mf.files, Revert.destination st.root fe ≠ some (seenPath st)

/-- The manifest that an order lands on. -/
def Lands (F : FleetCrates) (st : Store) (m : Machine) (orderPath : Path)
    (source : Option (Bytes × Sync.Peer)) (mf : Manifest) : Prop :=
  ∃ a m₁ m₂, accept F st orderPath m = .ok a m₁ ∧
    fetchTarget F st a.target source m₁ = .ok () m₂ ∧
    Snapshot.load F.toCrates st m₂.fs a.target = .ok mf

/-- Of every order file applied the time stamp is noted, or a newer one. -/
def Remembers (F : FleetCrates) (st : Store) (fs : Fs) (done : List Bytes) : Prop :=
  ∀ bytes ∈ done, (∃ d, fs.get (seenPath st) = some (.file d)) ∧
    ∃ p, OrderOf F bytes p ∧ p.ts ≤ lastSeen st fs

/-- The disk and the order files applied, after any orders, snapshots, reverts
and edits of the worktree.  No snapshot that is landed on or reverted to has the
note among its paths. -/
inductive Runs (F : FleetCrates) (st : Store) : Fs → List Bytes → Prop
  | start {fs : Fs} (hreal : st.Real fs) : Runs F st fs []
  | applied {m m' : Machine} {done : List Bytes} {bytes : Bytes} {h : Hash} (orderPath : Path)
      (source : Option (Bytes × Sync.Peer)) (force : Bool) (run : Runs F st m.fs done)
      (hspares : ∀ mf, Lands F st m orderPath source mf → Spares st mf)
      (hread : m.fs.read orderPath = .ok bytes)
      (happly : apply F st orderPath source force m = .ok h m') :
      Runs F st m'.fs (bytes :: done)
  | refused {m m' : Machine} {done : List Bytes} {e : Error} (orderPath : Path)
      (source : Option (Bytes × Sync.Peer)) (force : Bool) (run : Runs F st m.fs done)
      (hspares : ∀ mf, Lands F st m orderPath source mf → Spares st mf)
      (happly : apply F st orderPath source force m = .error e m') : Runs F st m'.fs done
  | snap {m : Machine} {done : List Bytes} (message : Bytes) (actor : Option Bytes)
      (run : Runs F st m.fs done) :
      Runs F st (finalState (Cli.snap F.toCrates st message actor m)).fs done
  | revert {m : Machine} {done : List Bytes} (reference : Bytes) (keepExtra force : Bool)
      (run : Runs F st m.fs done)
      (hspares : ∀ mf, Cli.Refers F.toCrates st (Cli.locked st m).fs reference mf →
        Spares st mf) :
      Runs F st (finalState (Cli.revert F.toCrates st reference keepExtra force m)).fs done
  | revertActor {m : Machine} {done : List Bytes} (actor : Bytes) (force : Bool)
      (run : Runs F st m.fs done)
      (hspares : ∀ vm touched,
        Revert.surgicalManifest F.toCrates st actor (Cli.locked st m).fs = .ok (vm, touched) →
          Spares st vm ∧ ∀ p ∈ touched, ¬ Cli.Spells st.root p (seenPath st)) :
      Runs F st (finalState (Cli.revertActor F.toCrates st actor force m)).fs done
  | edit {fs fs' : Fs} {done : List Bytes} (run : Runs F st fs done)
      (houtside : ∀ q, st.fabricDir <+: q → fs'.get q = fs.get q) : Runs F st fs' done

namespace Remembers

variable {fs fs' : Fs} {done : List Bytes}

/-- Orders are remembered while their record stays. -/
theorem keep (h : Remembers F st fs done)
    (hsame : ∀ d, fs.get (seenPath st) = some (.file d) →
      fs'.get (seenPath st) = fs.get (seenPath st)) : Remembers F st fs' done := by
  intro bytes hbytes
  obtain ⟨⟨d, hd⟩, p, hp, hle⟩ := h bytes hbytes
  have heq := hsame d hd
  exact ⟨⟨d, heq.trans hd⟩, p, hp, lastSeen_congr hd heq ▸ hle⟩

/-- What does not reach the note keeps it. -/
theorem touched {S : Path → Prop} (h : Remembers F st fs done) (htouched : st.Touched S fs fs')
    (hS : ∀ d, fs.get (seenPath st) = some (.file d) → ¬ S (seenPath st)) :
    Remembers F st fs' done :=
  h.keep fun d hd => htouched.frame _ (hS d hd)

end Remembers

/-- The note is under none of the other names. -/
theorem seen_not_within {names : List Name} (hnames : str "fleet_seen" ∉ names) :
    ¬ st.Within names (seenPath st) := Store.not_within hnames (by decide)

/-- A snapshot that spares the note is landed on without touching it. -/
theorem seen_not_touched {mf : Manifest} {fs : Fs} {d : FileData} (hspares : Spares st mf)
    (hfile : fs.get (seenPath st) = some (.file d)) :
    ¬ Revert.Touches st mf.files fs (seenPath st) :=
  Revert.not_touches (by decide) hfile hspares

/-- Landing on an order's target notes its time stamp. -/
theorem land_after {a : Accepted} {force : Bool} {done : List Bytes} {bytes : Bytes}
    (hreal : st.Real m.fs) (hrem : Remembers F st m.fs done)
    (hlast : ∀ b ∈ done, ∃ p, OrderOf F b p ∧ p.ts ≤ a.last) (horder : OrderOf F bytes a.payload)
    (hspares : ∀ mf, Snapshot.load F.toCrates st m.fs a.target = .ok mf → Spares st mf) :
    After (land F st a force m)
      (fun _ m' => st.Real m'.fs ∧ Remembers F st m'.fs (bytes :: done))
      (fun _ m' => st.Real m'.fs ∧ Remembers F st m'.fs done) := by
  unfold land
  apply after_look_bind
  · intro mf hload
    have hspare := hspares mf hload
    apply After.bind (P := fun _ m₁ => st.Real m₁.fs ∧ Remembers F st m₁.fs done)
    · have hkeep : ∀ m₁ : Machine, st.Touched (Revert.Touches st mf.files m.fs) m.fs m₁.fs →
          st.Real m₁.fs ∧ Remembers F st m₁.fs done := fun m₁ h₁ =>
        ⟨h₁.real, hrem.touched h₁ fun d hd => seen_not_touched hspare hd⟩
      exact (Revert.checkThenApply_touches hreal).mono (fun _ m₁ h₁ => hkeep m₁ h₁)
        fun _ m₁ h₁ => hkeep m₁ h₁
    intro checked m₁ h₁
    apply After.bind (P := fun _ m₂ => m₂ = m₁)
    · obtain ⟨_, applied⟩ := checked
      cases applied with
      | none => exact h₁
      | some _ => exact rfl
    intro _ m₂ hm₂
    subst hm₂
    have hother : ∀ {names : List Name} {m₃ : Machine}, str "fleet_seen" ∉ names →
        st.Touched (st.Within names) m₂.fs m₃.fs →
        st.Real m₃.fs ∧ Remembers F st m₃.fs done := fun hnames h₃ =>
      ⟨h₃.real, h₁.2.touched h₃ fun _ _ => seen_not_within hnames⟩
    apply After.bind ((Store.setHead_touching (some a.target) m₂ h₁.1).mono
      (fun _ _ h₃ => hother (by decide) h₃) fun _ _ h₃ => hother (by decide) h₃)
    intro _ m₃ h₃
    have hnames := Purge.record_names h₃.1 (n := str "fleet_seen") (by decide)
    have htouched : After (writeFile (seenPath st)
        (decimal (max a.payload.ts a.last).toNat ++ [10]) m₃.toWorld) _ _ :=
      Store.Touched.of_writeFile (S := fun _ => True) h₃.1 (List.prefix_append _ _) hnames trivial
    apply After.bind (P := fun _ m₄ => st.Real m₄.fs ∧ Remembers F st m₄.fs (bytes :: done))
    · apply after_io
      cases hwrite : writeFile (seenPath st) (decimal (max a.payload.ts a.last).toNat ++ [10])
          m₃.toWorld with
      | error e w =>
          -- the note is written in place; a write that fails never opened it
          rw [writeFile_error hwrite]
          exact h₃
      | ok u w =>
          obtain ⟨d, hd, hbytes⟩ := Store.Touched.writeFile_ok h₃.1 (List.prefix_append _ _)
            hnames hwrite
          refine ⟨(htouched.ok hwrite).real, ?_⟩
          have hseen : lastSeen st w.fs = max a.payload.ts a.last := lastSeen_of_file hd hbytes
          intro b hb
          refine ⟨⟨d, hd⟩, ?_⟩
          show ∃ p, OrderOf F b p ∧ p.ts ≤ lastSeen st w.fs
          rw [hseen]
          rcases List.mem_cons.mp hb with rfl | hb
          · exact ⟨a.payload, horder, (le_newer _ _).1⟩
          · obtain ⟨p, hp, hle⟩ := hlast b hb
            exact ⟨p, hp, UInt64.le_trans hle (le_newer _ _).2⟩
    intro _ m₄ h₄
    have hafter : ∀ {m₅ : Machine}, st.Touched (st.Within [str "audit.jsonl"]) m₄.fs m₅.fs →
        st.Real m₅.fs ∧ Remembers F st m₅.fs (bytes :: done) := fun h₅ =>
      ⟨h₅.real, h₄.2.touched h₅ fun _ _ => seen_not_within (by decide)⟩
    apply After.bind ((Audit.record_touching _ _ m₄ h₄.1).mono (fun _ _ h₅ => hafter h₅)
      fun _ _ h₅ => ⟨(hafter h₅).1, fun b hb => (hafter h₅).2 b (List.mem_cons_of_mem _ hb)⟩)
    intro _ _ h₅
    exact h₅
  · intro _ _
    exact ⟨hreal, hrem⟩

/-- **An order applied or refused** leaves the time stamps noted, its own too
when it was applied. -/
theorem apply_after {orderPath : Path} {source : Option (Bytes × Sync.Peer)} {force : Bool}
    {done : List Bytes} (hreal : st.Real m.fs) (hrem : Remembers F st m.fs done)
    (hspares : ∀ mf, Lands F st m orderPath source mf → Spares st mf) :
    After (apply F st orderPath source force m)
      (fun _ m' => st.Real m'.fs ∧ ∀ bytes, m.fs.read orderPath = .ok bytes →
        Remembers F st m'.fs (bytes :: done))
      (fun _ m' => st.Real m'.fs ∧ Remembers F st m'.fs done) := by
  have hid : ∀ {m' : Machine}, st.Touched (st.Within [str "fabric_id"]) m.fs m'.fs →
      Remembers F st m'.fs done := fun h =>
    hrem.touched h fun _ _ => seen_not_within (by decide)
  unfold apply
  cases haccept : accept F st orderPath m with
  | error e m₁ =>
      have h := (accept_after hreal).error haccept
      rw [bind_apply, haccept]
      exact ⟨h.real, hid h⟩
  | ok a m₁ =>
      obtain ⟨h₁, hlast, _, bytes, o, hread, hparsed⟩ :=
        (accept_after hreal).ok haccept
      have hrem₁ := hid h₁
      have hnoted : ∀ b ∈ done, ∃ p, OrderOf F b p ∧ p.ts ≤ a.last := by
        intro b hb
        rw [hlast]
        exact (hrem₁ b hb).2
      rw [bind_apply, haccept]
      simp only
      cases hfetch : fetchTarget F st a.target source m₁ with
      | error e m₂ =>
          have h₂ := (fetchTarget_touching (F := F) a.target source m₁ h₁.real).error hfetch
          rw [bind_apply, hfetch]
          exact ⟨h₂.real, hrem₁.touched h₂ fun _ _ => seen_not_within (by decide)⟩
      | ok u m₂ =>
          have h₂ := (fetchTarget_touching (F := F) a.target source m₁ h₁.real).ok hfetch
          have hrem₂ := hrem₁.touched h₂ fun _ _ => seen_not_within (by decide)
          rw [bind_apply, hfetch]
          refine (land_after h₂.real hrem₂ hnoted ⟨o, hparsed⟩ ?_).mono ?_ fun _ _ h => h
          · intro mf hload
            exact hspares mf ⟨a, m₁, m₂, haccept, hfetch, hload⟩
          · intro _ m' h
            refine ⟨h.1, ?_⟩
            intro bytes' hread'
            cases hread.symm.trans hread'
            exact h.2

/-- The time stamps of the orders applied stay noted. -/
theorem Runs.remembers {fs : Fs} {done : List Bytes} (run : Runs F st fs done) :
    st.Real fs ∧ Remembers F st fs done := by
  induction run with
  | start hreal => exact ⟨hreal, fun _ h => absurd h (List.not_mem_nil)⟩
  | applied orderPath source force run hspares hread happly ih =>
      obtain ⟨hreal, hrem⟩ := (apply_after ih.1 ih.2 hspares).ok happly
      exact ⟨hreal, hrem _ hread⟩
  | refused orderPath source force run hspares happly ih =>
      exact (apply_after ih.1 ih.2 hspares).error happly
  | @snap m done message actor run ih =>
      have h := (Cli.snap_touching (X := F.toCrates) message actor m ih.1).final
      exact ⟨h.real, ih.2.touched h fun _ _ => seen_not_within (by decide)⟩
  | @revert m done reference keepExtra force run hspares ih =>
      have hrevert : After (Cli.revert F.toCrates st reference keepExtra force m) _ _ :=
        Cli.revert_touches ih.1
      have h := hrevert.final
      have hlock := (Store.tryLock_touching m ih.1).final
      refine ⟨h.real, ih.2.touched h ?_⟩
      intro d hd hS
      have hd' := (hlock.frame _ (seen_not_within (by decide))).trans hd
      rcases hS with hin | ⟨mf, hmf, hreach⟩
      · exact seen_not_within (by decide) hin
      · exact seen_not_touched (hspares mf hmf) hd' hreach
  | @revertActor m done actor force run hspares ih =>
      have hrevert : After (Cli.revertActor F.toCrates st actor force m) _ _ :=
        Cli.revertActor_touches ih.1
      have h := hrevert.final
      have hlock := (Store.tryLock_touching m ih.1).final
      refine ⟨h.real, ih.2.touched h ?_⟩
      intro d hd hS
      have hd' := (hlock.frame _ (seen_not_within (by decide))).trans hd
      rcases hS with hin | ⟨vm, touched, hplan, hreach | ⟨p, hp, hspells⟩⟩
      · exact seen_not_within (by decide) hin
      · exact seen_not_touched (hspares vm touched hplan).1 hd' hreach
      · exact (hspares vm touched hplan).2 p hp hspells
  | edit run houtside ih =>
      refine ⟨⟨?_, ?_⟩, ?_⟩
      · rw [houtside _ (List.prefix_refl _)]
        exact ih.1.dir
      · intro q t hq ht
        exact ih.1.links q t hq (houtside q hq ▸ ht)
      · exact ih.2.keep fun _ _ => houtside _ (List.prefix_append _ _)

/-- HEAD and the worktree are as they were. -/
def Inert (st : Store) (fs fs' : Fs) : Prop :=
  fs'.get st.headPath = fs.get st.headPath ∧
    ∀ q, ¬ st.fabricDir <+: q → fs'.get q = fs.get q

/-- **An order file already applied is refused** once a newer one was applied,
and neither HEAD nor the worktree changes. -/
theorem replay_refused (F : FleetCrates) (st : Store) (m : Machine) (done : List Bytes)
    (bytes : Bytes) (orderPath : Path) (source : Option (Bytes × Sync.Peer)) (force : Bool)
    (run : Runs F st m.fs done) (hread : m.fs.read orderPath = .ok bytes)
    (hagain : bytes ∈ done) (hnewer : bytes ∈ done → Superseded F done bytes) :
    ∃ e m', apply F st orderPath source force m = .error e m' ∧ Inert st m.fs m'.fs := by
  obtain ⟨hreal, hrem⟩ := run.remembers
  obtain ⟨p, ⟨o, hparsed⟩, newer, hin, p', horder', hlt⟩ := hnewer hagain
  obtain ⟨⟨d, hd⟩, p₂, horder₂, hle⟩ := hrem newer hin
  have hinert : ∀ {m' : Machine}, st.Touched (st.Within [str "fabric_id"]) m.fs m'.fs →
      Inert st m.fs m'.fs := by
    intro m' h
    refine ⟨h.frame _ (Store.not_within (by decide) (by decide)), ?_⟩
    intro q hq
    exact h.frame q fun hin => hq hin.fabric
  cases haccept : accept F st orderPath m with
  | error e m₁ =>
      refine ⟨e, m₁, ?_, hinert ((accept_after (F := F) hreal).error haccept)⟩
      unfold apply
      rw [bind_apply, haccept]
  | ok a m₁ =>
      exfalso
      obtain ⟨h₁, hlast, hfresh, bytes', o', hread', hparsed'⟩ :=
        (accept_after (F := F) hreal).ok haccept
      cases hread.symm.trans hread'
      cases hparsed.symm.trans hparsed'
      obtain ⟨_, hparsed₂⟩ := horder₂
      obtain ⟨_, hparsed₃⟩ := horder'
      cases hparsed₂.symm.trans hparsed₃
      have hseen := lastSeen_congr hd (h₁.frame _ (seen_not_within (by decide)))
      rw [hlast, hseen] at hfresh
      exact hfresh (UInt64.lt_of_lt_of_le hlt hle)

/-! ### Two orders on a small fabric -/

/-- The seed of the fleet key. -/
def fleetSeed : Bytes := List.replicate 32 7

/-- A signature of 64 bytes. -/
def padSign (key message : Bytes) : Bytes := (padHash key).val ++ (padHash message).val

/-- An order to land on `one`, minted at this second. -/
def payloadAt (ts : UInt64) : OrderPayload :=
  { kind := str "respawn-fleet-order"
    fabricId := str "fabric"
    target := hashHex (padHash (str "one"))
    ts := ts
    nonce := decimal ts.toNat }

def orderAt (ts : UInt64) : FleetOrder :=
  { format := str "respawn-fleet-order/v1"
    pubkey := hexEncode fleetSeed
    payload := decimal ts.toNat
    sig := hexEncode (padSign fleetSeed (decimal ts.toNat)) }

/-- Two empty snapshots, and orders of the seconds one and two. -/
def fleetCrates : FleetCrates :=
  { smallCrates [(str "one", smallManifest none none []),
      (str "two", smallManifest (some (str "one")) none [])] [] [] with
    sign := padSign
    orderToJson := fun o => str "order " ++ o.payload
    orderOfJson := tableDecode [(str "order 1", orderAt 1), (str "order 2", orderAt 2)]
    orderPayloadToJson := fun p => decimal p.ts.toNat
    orderPayloadOfJson := tableDecode [(str "1", payloadAt 1), (str "2", payloadAt 2)]
    isKey := fun _ => true
    verify := fun pk message sig => sig = padSign pk message }

/-- A fabric whose HEAD is `one`, with the fleet key pinned; the orders lie
beside the worktree. -/
def fleetFabric : Fs :=
  Fs.build (Store.fabricNodes ⟨[str "w"]⟩ (hashHex (padHash (str "one"))) ++
    Store.blobNodes ⟨[str "w"]⟩ (str "manifests") (padHash (str "one")) (str "one") ++
    [(fleetKeyPath ⟨[str "w"]⟩, Store.plainFile (hexEncode fleetSeed)),
     (Anchor.fabricIdPath ⟨[str "w"]⟩, Store.plainFile (str "fabric")),
     ([str "order1"], Store.plainFile (str "order 1")),
     ([str "order2"], Store.plainFile (str "order 2"))])

/-- Present an order file. -/
abbrev present (name : Name) (m : Machine) : EStateM.Result Error Machine Hash :=
  apply fleetCrates ⟨[str "w"]⟩ [name] none false m

/-- Does an order land on an empty snapshot, if on any? -/
def landsEmpty (name : Name) (m : Machine) : Bool :=
  match accept fleetCrates ⟨[str "w"]⟩ [name] m with
  | .error _ _ => true
  | .ok a m₁ => match fetchTarget fleetCrates ⟨[str "w"]⟩ a.target none m₁ with
    | .error _ _ => true
    | .ok _ m₂ =>
        match Snapshot.load fleetCrates.toCrates ⟨[str "w"]⟩ m₂.fs a.target with
        | .error _ => true
        | .ok mf => mf.files.isEmpty

/-- A target without entries spares the records. -/
theorem spares_of_landsEmpty {name : Name} (h : landsEmpty name m = true) (mf : Manifest)
    (hlands : Lands fleetCrates ⟨[str "w"]⟩ m [name] none mf) : Spares ⟨[str "w"]⟩ mf := by
  obtain ⟨a, m₁, m₂, haccept, hfetch, hload⟩ := hlands
  unfold landsEmpty at h
  rw [haccept] at h
  simp only [hfetch, hload] at h
  intro fe hfe
  rw [List.isEmpty_iff.mp h] at hfe
  exact absurd hfe (List.not_mem_nil)

/-- The order file is applied to the fabric. -/
theorem runs_present {name : Name} {bytes : Bytes} {done : List Bytes}
    (run : Runs fleetCrates ⟨[str "w"]⟩ m.fs done) (hempty : landsEmpty name m = true)
    (hread : m.fs.read [name] = .ok bytes) (hok : succeeded (present name m) = true) :
    Runs fleetCrates ⟨[str "w"]⟩ (finalState (present name m)).fs (bytes :: done) := by
  cases happly : present name m with
  | error e m' =>
      rw [happly] at hok
      cases hok
  | ok h m' =>
      exact .applied [name] none false run (spares_of_landsEmpty hempty) hread happly

theorem fleetFabric_real : Store.Real ⟨[str "w"]⟩ fleetFabric :=
  Store.Real.of_keys (by decide +kernel) (by decide +kernel)

/-- The first order is applied. -/
abbrev landedOnce : Machine := finalState (present (str "order1") (Machine.start fleetFabric))

theorem landedOnce_runs : Runs fleetCrates ⟨[str "w"]⟩ landedOnce.fs [str "order 1"] :=
  runs_present (.start fleetFabric_real) (by decide +kernel) (by decide +kernel)
    (by decide +kernel)

/-- The orders of two seconds are applied in turn, and the first is presented
again. -/
theorem replay_refused_twice :
    let m := finalState (present (str "order2") landedOnce)
    ∃ e m', present (str "order1") m = .error e m' ∧ Inert ⟨[str "w"]⟩ m.fs m'.fs := by
  have run : Runs fleetCrates ⟨[str "w"]⟩ (finalState (present (str "order2") landedOnce)).fs
      [str "order 2", str "order 1"] :=
    runs_present landedOnce_runs (by decide +kernel) (by decide +kernel) (by decide +kernel)
  exact replay_refused fleetCrates ⟨[str "w"]⟩ _ _ (str "order 1") _ none false run
    (by decide +kernel) (by simp) fun _ =>
      ⟨payloadAt 1, ⟨orderAt 1, by decide +kernel⟩, str "order 2", by simp, payloadAt 2,
        ⟨orderAt 2, by decide +kernel⟩, by decide⟩

/-- No order file that was applied takes effect when it is presented again. -/
def TakesEffectOnce (F : FleetCrates) (st : Store) : Prop :=
  ∀ (m : Machine) (done : List Bytes) (bytes : Bytes) (orderPath : Path)
    (source : Option (Bytes × Sync.Peer)) (force : Bool), Runs F st m.fs done →
    m.fs.read orderPath = .ok bytes → bytes ∈ done →
    Inert st m.fs (finalState (apply F st orderPath source force m)).fs

/-- Work is snapshotted after the first order was applied, and the order moves
HEAD back. -/
theorem replay_moves_head : ¬ TakesEffectOnce fleetCrates ⟨[str "w"]⟩ := by
  intro h
  have run := Runs.snap (m := landedOnce) [] none landedOnce_runs
  have hinert := (h (finalState (Cli.snap fleetCrates.toCrates ⟨[str "w"]⟩ [] none landedOnce)) _
    (str "order 1") [str "order1"] none false run (by decide +kernel) (by simp)).1
  revert hinert
  decide +kernel

end Fleet

namespace Cli

/-- `respawn fleet apply` -/
def fleetApply (F : FleetCrates) (st : Store) (orderPath : Path)
    (source : Option (Bytes × Sync.Peer)) (force : Bool) : Sys Hash := do
  st.tryLock
  Fleet.apply F st orderPath source force

end Cli

end Respawn
