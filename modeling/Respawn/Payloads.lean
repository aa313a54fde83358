import Respawn.Anchors
import Respawn.Fleet
import Respawn.Json

/-!
# Signed payloads

Anchors, purge certificates and fleet orders are signed with one key, and each
is a document of the same shape: a format, a public key, a payload and a
signature over the payload's text.  The format is not signed.  What keeps a
payload of one kind from being taken for one of another kind is the payload's
own fields: an anchor says what it is in the field `type`, the other two in
the field `kind`, and an order has a target where a certificate has counts.

`members` is what the derived serializer of a payload prints, `ofMembers` what
the derived deserializer makes of the members of an object.  A text of one kind
is rejected by the verifiers of the others, whatever stands in its fields
(`signatures_keep_to_their_purpose`).
-/

namespace Respawn

open ByteStr FileTree StateLogic

open Json (Member Value textField numField textOption textField_missing numField_missing)

/-! ## The payloads as objects -/

/-- An optional string. -/
def optionValue : Option Bytes → Value
  | none => .null
  | some s => .text s

namespace Anchor.AnchorPayload

def members (p : AnchorPayload) : List Member :=
  [(str "type", .text p.kind), (str "version", .num p.version.toNat),
    (str "fabric_id", .text p.fabricId), (str "audit_len", .num p.auditLen),
    (str "audit_tip", .text p.auditTip), (str "head", optionValue p.head),
    (str "prev_anchor", optionValue p.prevAnchor), (str "ts", .num p.ts.toNat)]

def ofMembers (ms : List Member) : Option AnchorPayload := do
  let kind ← textField (str "type") ms
  let version ← numField (2 ^ 32) (str "version") ms
  let fabricId ← textField (str "fabric_id") ms
  let auditLen ← numField (2 ^ 64) (str "audit_len") ms
  let auditTip ← textField (str "audit_tip") ms
  let head ← textOption (str "head") ms
  let prevAnchor ← textOption (str "prev_anchor") ms
  let ts ← numField (2 ^ 64) (str "ts") ms
  pure { kind := kind
         version := UInt32.ofNat version
         fabricId := fabricId
         auditLen := auditLen
         auditTip := auditTip
         head := head
         prevAnchor := prevAnchor
         ts := UInt64.ofNat ts }

end Anchor.AnchorPayload

namespace PurgePayload

def members (p : PurgePayload) : List Member :=
  [(str "kind", .text p.kind), (str "version", .num p.version),
    (str "fabric_id", .text p.fabricId), (str "path", .text p.path),
    (str "content", .text p.content), (str "chunks_removed", .num p.chunksRemoved),
    (str "chunks_retained_shared", .num p.chunksRetainedShared),
    (str "manifests_touched", .num p.manifestsTouched), (str "audit_len", .num p.auditLen),
    (str "audit_tip", .text p.auditTip), (str "ts", .num p.ts)]

def ofMembers (ms : List Member) : Option PurgePayload := do
  let kind ← textField (str "kind") ms
  let version ← numField (2 ^ 32) (str "version") ms
  let fabricId ← textField (str "fabric_id") ms
  let path ← textField (str "path") ms
  let content ← textField (str "content") ms
  let chunksRemoved ← numField (2 ^ 64) (str "chunks_removed") ms
  let chunksRetainedShared ← numField (2 ^ 64) (str "chunks_retained_shared") ms
  let manifestsTouched ← numField (2 ^ 64) (str "manifests_touched") ms
  let auditLen ← numField (2 ^ 64) (str "audit_len") ms
  let auditTip ← textField (str "audit_tip") ms
  let ts ← numField (2 ^ 64) (str "ts") ms
  pure { kind := kind
         version := version
         fabricId := fabricId
         path := path
         content := content
         chunksRemoved := chunksRemoved
         chunksRetainedShared := chunksRetainedShared
         manifestsTouched := manifestsTouched
         auditLen := auditLen
         auditTip := auditTip
         ts := ts }

end PurgePayload

namespace Fleet.OrderPayload

def members (p : OrderPayload) : List Member :=
  [(str "kind", .text p.kind), (str "fabric_id", .text p.fabricId),
    (str "target", .text p.target), (str "ts", .num p.ts.toNat), (str "nonce", .text p.nonce)]

def ofMembers (ms : List Member) : Option OrderPayload := do
  let kind ← textField (str "kind") ms
  let fabricId ← textField (str "fabric_id") ms
  let target ← textField (str "target") ms
  let ts ← numField (2 ^ 64) (str "ts") ms
  let nonce ← textField (str "nonce") ms
  pure { kind := kind
         fabricId := fabricId
         target := target
         ts := UInt64.ofNat ts
         nonce := nonce }

end Fleet.OrderPayload

/-- The strings of a member are strings and its number is a `u64`. -/
def Fits (m : Member) : Prop :=
  validUtf8 m.1 = true ∧ match m.2 with
    | .null => True
    | .num n => n < 2 ^ 64
    | .text s => validUtf8 s = true

instance (m : Member) : Decidable (Fits m) :=
  match m with
  | (name, .null) => inferInstanceAs (Decidable (validUtf8 name = true ∧ True))
  | (name, .num n) => inferInstanceAs (Decidable (validUtf8 name = true ∧ n < 2 ^ 64))
  | (name, .text s) => inferInstanceAs (Decidable (validUtf8 name = true ∧ validUtf8 s = true))

/-- A payload is read back from its own members. -/
theorem Anchor.AnchorPayload.ofMembers_members {p : AnchorPayload}
    (h : ∀ m ∈ p.members, Fits m) : ofMembers p.members = some p := by
  have hlen : p.auditLen < 2 ^ 64 := (h (str "audit_len", .num p.auditLen) (by simp [members])).2
  have hversion : numField (2 ^ 32) (str "version") p.members = some p.version.toNat :=
    if_pos p.version.toNat_lt
  have haudit : numField (2 ^ 64) (str "audit_len") p.members = some p.auditLen := if_pos hlen
  have hhead : textOption (str "head") p.members = some p.head := by
    cases p with
    | mk kind version fabricId auditLen auditTip head prevAnchor ts => cases head <;> rfl
  have hprev : textOption (str "prev_anchor") p.members = some p.prevAnchor := by
    cases p with
    | mk kind version fabricId auditLen auditTip head prevAnchor ts => cases prevAnchor <;> rfl
  have hts : numField (2 ^ 64) (str "ts") p.members = some p.ts.toNat := if_pos p.ts.toNat_lt
  have hrest : textField (str "type") p.members = some p.kind ∧
      textField (str "fabric_id") p.members = some p.fabricId ∧
      textField (str "audit_tip") p.members = some p.auditTip := ⟨rfl, rfl, rfl⟩
  simp only [ofMembers, hrest, hversion, haudit, hhead, hprev, hts, Option.bind_eq_bind,
    Option.bind_some, Option.pure_def, UInt32.ofNat_toNat, UInt64.ofNat_toNat]

/-- A purge payload is read back from its members. -/
theorem PurgePayload.ofMembers_members {p : PurgePayload} (hversion : p.version < 2 ^ 32)
    (h : ∀ m ∈ p.members, Fits m) : ofMembers p.members = some p := by
  have hnum : ∀ name n, (name, Value.num n) ∈ p.members → n < 2 ^ 64 := fun _ _ hm => (h _ hm).2
  have hnumbers : numField (2 ^ 32) (str "version") p.members = some p.version ∧
      numField (2 ^ 64) (str "chunks_removed") p.members = some p.chunksRemoved ∧
      numField (2 ^ 64) (str "chunks_retained_shared") p.members = some p.chunksRetainedShared ∧
      numField (2 ^ 64) (str "manifests_touched") p.members = some p.manifestsTouched ∧
      numField (2 ^ 64) (str "audit_len") p.members = some p.auditLen ∧
      numField (2 ^ 64) (str "ts") p.members = some p.ts :=
    ⟨if_pos hversion, if_pos (hnum (str "chunks_removed") _ (by simp [members])),
      if_pos (hnum (str "chunks_retained_shared") _ (by simp [members])),
      if_pos (hnum (str "manifests_touched") _ (by simp [members])),
      if_pos (hnum (str "audit_len") _ (by simp [members])),
      if_pos (hnum (str "ts") _ (by simp [members]))⟩
  have htexts : textField (str "kind") p.members = some p.kind ∧
      textField (str "fabric_id") p.members = some p.fabricId ∧
      textField (str "path") p.members = some p.path ∧
      textField (str "content") p.members = some p.content ∧
      textField (str "audit_tip") p.members = some p.auditTip := ⟨rfl, rfl, rfl, rfl, rfl⟩
  simp only [ofMembers, hnumbers, htexts, Option.bind_eq_bind, Option.bind_some, Option.pure_def]

/-- An order payload is read back from its members. -/
theorem Fleet.OrderPayload.ofMembers_members (p : OrderPayload) :
    ofMembers p.members = some p := by
  have hts : numField (2 ^ 64) (str "ts") p.members = some p.ts.toNat := if_pos p.ts.toNat_lt
  have htexts : textField (str "kind") p.members = some p.kind ∧
      textField (str "fabric_id") p.members = some p.fabricId ∧
      textField (str "target") p.members = some p.target ∧
      textField (str "nonce") p.members = some p.nonce := ⟨rfl, rfl, rfl, rfl⟩
  simp only [ofMembers, hts, htexts, Option.bind_eq_bind, Option.bind_some, Option.pure_def,
    UInt64.ofNat_toNat]

/-! ## Verifying a certificate -/

/-- The functions of other crates on purge certificates: the JSON decoders,
which bytes are a verification key, and the verification of a signature. -/
structure PurgeCrates extends Crates where
  certOfJson : Bytes → Except Bytes PurgeCert
  payloadOfJson : Bytes → Except Bytes PurgePayload
  isKey : Bytes → Bool
  verify : Bytes → Bytes → Bytes → Bool

namespace Purge

variable (P : PurgeCrates) (st : Store)

/-- The certificate in a file and what it says. -/
def readCert (bytes : Bytes) : Except Error (PurgeCert × PurgePayload) :=
  match Fleet.fromJson (P.certOfJson bytes) with
  | .error e => .error e
  | .ok cert =>
      if cert.format ≠ str "respawn-purge/v1" then
        .error (.corrupt (str "unknown purge cert format"))
      else match Fleet.fromJson (P.payloadOfJson cert.payload) with
        | .error e => .error e
        | .ok payload =>
            if payload.kind ≠ str "respawn-purge" then
              .error (.corrupt (str "payload kind mismatch"))
            else .ok (cert, payload)

/-- The signer must be the one that is pinned, if there is one, and the
signature its own. -/
def checkCert (cert : PurgeCert) (pin : Option Bytes) : Except Error Unit :=
  if pin.isSome ∧ pin ≠ some cert.pubkey then
    .error (.corrupt (str "purge cert signer mismatch"))
  else match hexDecode cert.pubkey with
    | none => .error (.corrupt (str "bad pubkey hex"))
    | some pk =>
        if pk.length ≠ 32 then .error (.corrupt (str "bad pubkey length"))
        else if ¬ P.isKey pk then .error (.corrupt (str "bad pubkey"))
        else match hexDecode cert.sig with
          | none => .error (.corrupt (str "bad sig hex"))
          | some sig =>
              if sig.length ≠ 64 then .error (.corrupt (str "bad sig length"))
              else if ¬ P.verify pk cert.payload sig then
                .error (.corrupt (str "purge cert signature invalid"))
              else .ok ()

/-- Verify a purge certificate. -/
def verifyCert (certPath : Path) (pin : Option Bytes) : Sys Bytes := do
  let bytes ← look fun fs => ioErr (fs.read certPath)
  let (cert, payload) ← look fun _ => readCert P bytes
  look fun _ => checkCert P cert pin
  let fabricId ← Anchor.fabricId st
  if payload.fabricId ≠ fabricId then
    throw (.corrupt (str "purge cert belongs to another fabric"))
  else do
    let tombs ← look (tombstones P.toCrates st)
    if tombs.any fun t => t.path = payload.path ∧ t.content = payload.content then
      pure (str "valid: " ++ payload.path ++ str " purged at " ++ decimal payload.ts ++ str " (" ++
        decimal payload.chunksRemoved ++ str " chunks removed, " ++
        decimal payload.chunksRetainedShared ++ str " shared-retained)")
    else throw (.corrupt (str "no matching tombstone — purge was never recorded here"))

/-! ## What is signed -/

/-- The payload and the certificate that `certify` signs, with the operator's
note. -/
def compose (X : Crates) (p : Plan) (counts : Nat × Nat) (ts : Nat) :
    Sys (PurgePayload × PurgeCert × Option Bytes) := do
  let (raw, _, note) ← Keychain.get st
  let (auditLen, auditTip) ← look (Audit.tip X st)
  let fabricId ← Anchor.fabricId st
  let payload : PurgePayload := { kind := str "respawn-purge"
                                  version := 1
                                  fabricId := fabricId
                                  path := p.relStr
                                  content := hashHex p.content
                                  chunksRemoved := counts.1
                                  chunksRetainedShared := counts.2
                                  manifestsTouched := p.manifestsTouched
                                  auditLen := auditLen
                                  auditTip := auditTip
                                  ts := ts }
  let text := X.payloadToJson payload
  pure (payload, { format := str "respawn-purge/v1"
                   pubkey := hexEncode (X.verifyingKey raw.val)
                   payload := text
                   sig := hexEncode (X.sign raw.val text) }, note)

/-- What `certify` signs is the text of a certificate's payload. -/
theorem text_of_compose {X : Crates} {p : Plan} {counts : Nat × Nat} {ts : Nat} {m m' : Machine}
    {payload : PurgePayload} {cert : PurgeCert} {note : Option Bytes}
    (h : compose st X p counts ts m = .ok (payload, cert, note) m') :
    cert.payload = X.payloadToJson payload ∧ payload.kind = str "respawn-purge" := by
  unfold compose at h
  obtain ⟨⟨raw, placement, note'⟩, m₁, _, h⟩ := bind_eq_ok.mp h
  obtain ⟨⟨n, tip⟩, m₂, _, h⟩ := bind_eq_ok.mp h
  obtain ⟨id, m₃, _, h⟩ := bind_eq_ok.mp h
  cases h
  exact ⟨rfl, rfl⟩

end Purge

namespace Fleet

variable (F : FleetCrates) (st : Store)

/-- The payload and the order that `order` signs. -/
def compose (target : Bytes) : Sys (OrderPayload × FleetOrder) := do
  let id ← look (Snapshot.resolve st target)
  let known ← look fun fs => .ok (st.hasManifest fs id)
  if ¬ known then throw (.corrupt (str "target snapshot not in store"))
  else do
    let (raw, _, _) ← Keychain.get st
    let m ← get
    let ts := unixSecs m.clock
    let nonce := hashHex (F.blake3 (decimal ts ++ str ":" ++ decimal m.pid))
    let fabricId ← Anchor.fabricId st
    let payload : OrderPayload := { kind := str "respawn-fleet-order"
                                    fabricId := fabricId
                                    target := hashHex id
                                    ts := UInt64.ofNat ts
                                    nonce := nonce.take 16 }
    let text := F.orderPayloadToJson payload
    pure (payload, { format := str "respawn-fleet-order/v1"
                     pubkey := hexEncode (F.verifyingKey raw.val)
                     payload := text
                     sig := hexEncode (F.sign raw.val text) })

/-- An order is signed and then written. -/
theorem order_eq (target : Bytes) (out : Path) : order F st target out = (do
    let (_, o) ← compose F st target
    io (createDirAll out.dropLast)
    let tmp ← tmpPath out.dropLast (str "fleet-order")
    io (writeFile tmp (F.orderToJson o))
    io (rename tmp out)
    pure out) := by
  unfold order compose
  simp only [bind_assoc]
  congr 1
  funext id
  congr 1
  funext known
  split
  · rfl
  · simp only [bind_assoc, pure_bind]

/-- What `order` signs is the text of an order's payload. -/
theorem text_of_compose {target : Bytes} {m m' : Machine} {payload : OrderPayload}
    {o : FleetOrder} (h : compose F st target m = .ok (payload, o) m') :
    o.payload = F.orderPayloadToJson payload ∧ payload.kind = str "respawn-fleet-order" := by
  unfold compose at h
  obtain ⟨id, m₁, _, h⟩ := bind_eq_ok.mp h
  obtain ⟨known, m₂, _, h⟩ := bind_eq_ok.mp h
  split at h
  · cases h
  · obtain ⟨⟨raw, placement, note⟩, m₃, _, h⟩ := bind_eq_ok.mp h
    obtain ⟨m₄, m₅, _, h⟩ := bind_eq_ok.mp h
    obtain ⟨fabricId, m₆, _, h⟩ := bind_eq_ok.mp h
    cases h
    exact ⟨rfl, rfl⟩

end Fleet

/-- What `create` signs is the text of an anchor's payload. -/
theorem Anchor.text_of_compose {A : AnchorCrates} {st : Store} {raw : Keychain.Secret} {n : Nat}
    {tip : Bytes} {m m' : Machine} {payload : AnchorPayload} {file : AnchorFile}
    (h : compose A st raw n tip m = .ok (payload, file) m') :
    file.payload = A.anchorPayloadToJson payload ∧ payload.kind = str "respawn-anchor" := by
  unfold compose at h
  obtain ⟨found, m₁, _, h⟩ := bind_eq_ok.mp h
  obtain ⟨id, m₂, _, h⟩ := bind_eq_ok.mp h
  obtain ⟨head, m₃, _, h⟩ := bind_eq_ok.mp h
  obtain ⟨m₄, m₅, _, h⟩ := bind_eq_ok.mp h
  cases h
  exact ⟨rfl, rfl⟩

/-! ## Rejection -/

/-- An anchor file that carries this payload is rejected, whatever else is in
it. -/
def Anchor.Rejects (A : AnchorCrates) (text : Bytes) : Prop :=
  ∀ bytes file, A.anchorOfJson bytes = .ok file → file.payload = text →
    ∃ e, checkedAnchor A bytes = .error e

/-- A certificate file that carries this payload is rejected, whatever else is
in it. -/
def Purge.Rejects (P : PurgeCrates) (st : Store) (text : Bytes) : Prop :=
  ∀ certPath pin m bytes cert, m.fs.read certPath = .ok bytes → P.certOfJson bytes = .ok cert →
    cert.payload = text → ∃ e, verifyCert P st certPath pin m = .error e m

/-- An order file that carries this payload is rejected, whatever else is in
it. -/
def Fleet.Rejects (F : FleetCrates) (st : Store) (text : Bytes) : Prop :=
  ∀ orderPath source force m bytes o, m.fs.read orderPath = .ok bytes →
    F.orderOfJson bytes = .ok o → o.payload = text →
      ∃ e, apply F st orderPath source force m = .error e m

/-- What gives no value is an error. -/
theorem error_of_toOption {ε α : Type} {r : Except ε α} (h : r.toOption = none) :
    ∃ e, r = .error e := by
  cases r with
  | ok a => cases h
  | error e => exact ⟨e, rfl⟩

/-- A payload that is no anchor's fails behind the signature at the latest. -/
theorem Anchor.rejects_of_unreadable {A : AnchorCrates} {text : Bytes}
    (h : (A.anchorPayloadOfJson text).toOption = none) : Rejects A text := by
  rintro bytes file hfile rfl
  obtain ⟨e, he⟩ := error_of_toOption h
  unfold checkedAnchor
  rw [hfile]
  by_cases hformat : file.format ≠ str "respawn-anchor/v1"
  · exact ⟨_, if_pos hformat⟩
  · cases hsig : checkSignature A file with
    | error e' => exact ⟨e', by simp only [if_neg hformat, hsig]⟩
    | ok u => exact ⟨_, by simp only [if_neg hformat, hsig, he]; rfl⟩

/-- A payload that is no certificate's fails before anything is looked up. -/
theorem Purge.rejects_of_unreadable {P : PurgeCrates} {st : Store} {text : Bytes}
    (h : (P.payloadOfJson text).toOption = none) : Rejects P st text := by
  rintro certPath pin m bytes cert hread hcert rfl
  obtain ⟨e, he⟩ := error_of_toOption h
  have hbad : ∃ e', readCert P bytes = .error e' := by
    unfold readCert
    rw [hcert]
    by_cases hformat : cert.format ≠ str "respawn-purge/v1"
    · exact ⟨_, if_pos hformat⟩
    · exact ⟨_, by simp only [Fleet.fromJson, if_neg hformat, he]; rfl⟩
  obtain ⟨e', he'⟩ := hbad
  refine ⟨e', ?_⟩
  have hlook : (look fun fs => ioErr (fs.read certPath)) m = .ok bytes m := by
    rw [look, hread]
    rfl
  have hfail : look (fun _ => readCert P bytes) m = .error e' m := by
    rw [look, he']
  rw [verifyCert, bind_apply, hlook]
  simp only [bind_apply, hfail]

/-- A payload that is no order's fails before anything is looked up. -/
theorem Fleet.rejects_of_unreadable {F : FleetCrates} {st : Store} {text : Bytes}
    (h : (F.orderPayloadOfJson text).toOption = none) : Rejects F st text := by
  rintro orderPath source force m bytes o hread horder rfl
  obtain ⟨e, he⟩ := error_of_toOption h
  have hbad : ∃ e', readOrder F bytes = .error e' := by
    unfold readOrder
    rw [horder]
    by_cases hformat : o.format ≠ str "respawn-fleet-order/v1"
    · exact ⟨_, if_pos hformat⟩
    · exact ⟨_, by simp only [fromJson, if_neg hformat, he]; rfl⟩
  obtain ⟨e', he'⟩ := hbad
  refine ⟨e', ?_⟩
  have hlook : (look fun fs => ioErr (fs.read orderPath)) m = .ok bytes m := by
    rw [look, hread]
    rfl
  have hfail : look (fun _ => readOrder F bytes) m = .error e' m := by
    rw [look, he']
  have haccept : accept F st orderPath m = .error e' m := by
    rw [accept, bind_apply, hlook]
    simp only [bind_apply, hfail]
  rw [apply, bind_apply, haccept]

/-! ## The fields of one kind are not those of another -/

/-- An object without a type is no anchor's payload. -/
theorem Anchor.AnchorPayload.ofMembers_typeless {ms : List Member}
    (h : str "type" ∉ ms.map Prod.fst) : ofMembers ms = none := by
  rw [ofMembers, textField_missing h]
  rfl

/-- An object without a kind or a version is no certificate's payload. -/
theorem PurgePayload.ofMembers_missing {ms : List Member}
    (h : str "kind" ∉ ms.map Prod.fst ∨ str "version" ∉ ms.map Prod.fst) :
    ofMembers ms = none := by
  unfold ofMembers
  rcases h with hkind | hversion
  · rw [textField_missing hkind]
    rfl
  · rw [numField_missing hversion]
    cases textField (str "kind") ms <;> rfl

/-- An object without a kind or a target is no order's payload. -/
theorem Fleet.OrderPayload.ofMembers_missing {ms : List Member}
    (h : str "kind" ∉ ms.map Prod.fst ∨ str "target" ∉ ms.map Prod.fst) :
    ofMembers ms = none := by
  unfold ofMembers
  rcases h with hkind | htarget
  · rw [textField_missing hkind]
    rfl
  · rw [textField_missing htarget]
    cases textField (str "kind") ms with
    | none => rfl
    | some kind => cases textField (str "fabric_id") ms <;> rfl

/-- The payload codecs are the derived ones: they print compact JSON, and they
look for their fields in the members that `read` finds.  What is printed of
strings and of `u64` numbers is found again. -/
structure Serde (read : Bytes → Option (List Member)) (A : AnchorCrates) (P : PurgeCrates)
    (F : FleetCrates) : Prop where
  reads : ∀ ms, (∀ m ∈ ms, Fits m) → read (Json.print ms) = some ms
  anchorTo : ∀ p, A.anchorPayloadToJson p = Json.print p.members
  anchorOf : ∀ s, (A.anchorPayloadOfJson s).toOption =
    (read s).bind Anchor.AnchorPayload.ofMembers
  certTo : ∀ p, P.payloadToJson p = Json.print p.members
  certOf : ∀ s, (P.payloadOfJson s).toOption = (read s).bind PurgePayload.ofMembers
  orderTo : ∀ p, F.orderPayloadToJson p = Json.print p.members
  orderOf : ∀ s, (F.orderPayloadOfJson s).toOption = (read s).bind Fleet.OrderPayload.ofMembers

namespace Serde

variable {read : Bytes → Option (List Member)} {A : AnchorCrates} {P : PurgeCrates}
  {F : FleetCrates}

/-- The text of an anchor's payload is read back. -/
theorem anchor_readBack (h : Serde read A P F) {p : Anchor.AnchorPayload}
    (hfits : ∀ m ∈ p.members, Fits m) :
    A.anchorPayloadOfJson (A.anchorPayloadToJson p) = .ok p := by
  apply eq_ok_of_toOption
  rw [h.anchorTo, h.anchorOf, h.reads _ hfits]
  exact Anchor.AnchorPayload.ofMembers_members hfits

/-- The text of a certificate's payload is read back. -/
theorem cert_readBack (h : Serde read A P F) {p : PurgePayload} (hversion : p.version < 2 ^ 32)
    (hfits : ∀ m ∈ p.members, Fits m) : P.payloadOfJson (P.payloadToJson p) = .ok p := by
  apply eq_ok_of_toOption
  rw [h.certTo, h.certOf, h.reads _ hfits]
  exact PurgePayload.ofMembers_members hversion hfits

/-- The text of an order's payload is read back. -/
theorem order_readBack (h : Serde read A P F) {p : Fleet.OrderPayload}
    (hfits : ∀ m ∈ p.members, Fits m) :
    F.orderPayloadOfJson (F.orderPayloadToJson p) = .ok p := by
  apply eq_ok_of_toOption
  rw [h.orderTo, h.orderOf, h.reads _ hfits]
  exact Fleet.OrderPayload.ofMembers_members p

end Serde

/-- **Signatures keep to their purpose.**  A payload of one kind, whatever
stands in its fields, is rejected by the verifiers of the two other kinds,
whatever the document around it says. -/
theorem signatures_keep_to_their_purpose {read : Bytes → Option (List Member)} {A : AnchorCrates}
    {P : PurgeCrates} {F : FleetCrates} (h : Serde read A P F) (st : Store) :
    (∀ p : Anchor.AnchorPayload, (∀ m ∈ p.members, Fits m) →
      Purge.Rejects P st (A.anchorPayloadToJson p) ∧
        Fleet.Rejects F st (A.anchorPayloadToJson p)) ∧
    (∀ p : PurgePayload, (∀ m ∈ p.members, Fits m) →
      Anchor.Rejects A (P.payloadToJson p) ∧ Fleet.Rejects F st (P.payloadToJson p)) ∧
    (∀ p : Fleet.OrderPayload, (∀ m ∈ p.members, Fits m) →
      Anchor.Rejects A (F.orderPayloadToJson p) ∧
        Purge.Rejects P st (F.orderPayloadToJson p)) := by
  refine ⟨?_, ?_, ?_⟩
  · intro p hfits
    have hkind : str "kind" ∉ p.members.map Prod.fst := by
      simp only [Anchor.AnchorPayload.members, List.map_cons, List.map_nil]
      decide
    rw [h.anchorTo]
    constructor
    · apply Purge.rejects_of_unreadable
      rw [h.certOf, h.reads _ hfits]
      exact PurgePayload.ofMembers_missing (.inl hkind)
    · apply Fleet.rejects_of_unreadable
      rw [h.orderOf, h.reads _ hfits]
      exact Fleet.OrderPayload.ofMembers_missing (.inl hkind)
  · intro p hfits
    have htype : str "type" ∉ p.members.map Prod.fst := by
      simp only [PurgePayload.members, List.map_cons, List.map_nil]
      decide
    have htarget : str "target" ∉ p.members.map Prod.fst := by
      simp only [PurgePayload.members, List.map_cons, List.map_nil]
      decide
    rw [h.certTo]
    constructor
    · apply Anchor.rejects_of_unreadable
      rw [h.anchorOf, h.reads _ hfits]
      exact Anchor.AnchorPayload.ofMembers_typeless htype
    · apply Fleet.rejects_of_unreadable
      rw [h.orderOf, h.reads _ hfits]
      exact Fleet.OrderPayload.ofMembers_missing (.inr htarget)
  · intro p hfits
    have htype : str "type" ∉ p.members.map Prod.fst := by
      simp only [Fleet.OrderPayload.members, List.map_cons, List.map_nil]
      decide
    have hversion : str "version" ∉ p.members.map Prod.fst := by
      simp only [Fleet.OrderPayload.members, List.map_cons, List.map_nil]
      decide
    rw [h.orderTo]
    constructor
    · apply Anchor.rejects_of_unreadable
      rw [h.anchorOf, h.reads _ hfits]
      exact Anchor.AnchorPayload.ofMembers_typeless htype
    · apply Purge.rejects_of_unreadable
      rw [h.certOf, h.reads _ hfits]
      exact PurgePayload.ofMembers_missing (.inr hversion)

/-! ## A certificate that claims to be an anchor -/

/-- A derived reader over the parser of flat objects. -/
def derive {α : Type} (ofMembers : List Member → Option α) (s : Bytes) : Except Bytes α :=
  match (Json.parse s).bind ofMembers with
  | some a => .ok a
  | none => .error (str "invalid document")

theorem toOption_derive {α : Type} (ofMembers : List Member → Option α) (s : Bytes) :
    (derive ofMembers s).toOption = (Json.parse s).bind ofMembers := by
  unfold derive
  cases (Json.parse s).bind ofMembers <;> rfl

/-- A signed document with these contents. -/
def documentMembers (format pubkey payload sig : Bytes) : List Member :=
  [(str "format", .text format), (str "pubkey", .text pubkey), (str "payload", .text payload),
    (str "sig", .text sig)]

def documentOf {α : Type} (make : Bytes → Bytes → Bytes → Bytes → α) (ms : List Member) :
    Option α := do
  let format ← textField (str "format") ms
  let pubkey ← textField (str "pubkey") ms
  let payload ← textField (str "payload") ms
  let sig ← textField (str "sig") ms
  pure (make format pubkey payload sig)

/-- A document is read back from its members. -/
theorem derive_document {α : Type} (make : Bytes → Bytes → Bytes → Bytes → α)
    (format pubkey payload sig : Bytes) :
    derive (documentOf make) (Json.print (documentMembers format pubkey payload sig)) =
      .ok (make format pubkey payload sig) := by
  rw [derive, Json.parse_print]
  rfl

def jsonAnchors : AnchorCrates :=
  { smallCrates [] [] [] with
    verifyingKey := id
    sign := Anchor.padSignature
    anchorToJson := fun f => Json.print (documentMembers f.format f.pubkey f.payload f.sig)
    anchorOfJson := derive (documentOf Anchor.AnchorFile.mk)
    anchorPayloadToJson := fun p => Json.print p.members
    anchorPayloadOfJson := derive Anchor.AnchorPayload.ofMembers
    isKey := fun _ => true
    verify := fun pk message sig => sig = Anchor.padSignature pk message }

def jsonCerts : PurgeCrates :=
  { smallCrates [] [] [] with
    verifyingKey := id
    sign := Anchor.padSignature
    payloadToJson := fun p => Json.print p.members
    certToJson := fun c => Json.print (documentMembers c.format c.pubkey c.payload c.sig)
    certOfJson := derive (documentOf PurgeCert.mk)
    payloadOfJson := derive PurgePayload.ofMembers
    isKey := fun _ => true
    verify := fun pk message sig => sig = Anchor.padSignature pk message }

def jsonOrders : FleetCrates :=
  { smallCrates [] [] [] with
    verifyingKey := id
    sign := Anchor.padSignature
    orderToJson := fun o => Json.print (documentMembers o.format o.pubkey o.payload o.sig)
    orderOfJson := derive (documentOf Fleet.FleetOrder.mk)
    orderPayloadToJson := fun p => Json.print p.members
    orderPayloadOfJson := derive Fleet.OrderPayload.ofMembers
    isKey := fun _ => true
    verify := fun pk message sig => sig = Anchor.padSignature pk message }

/-- The printer and the parser do what serde_json does. -/
theorem json_serde : Serde Json.parse jsonAnchors jsonCerts jsonOrders where
  reads ms _ := Json.parse_print ms
  anchorTo _ := rfl
  anchorOf s := toOption_derive _ s
  certTo _ := rfl
  certOf s := toOption_derive _ s
  orderTo _ := rfl
  orderOf s := toOption_derive _ s

/-- A certificate for a path that tries to end its string and to be an anchor. -/
def smuggled : PurgePayload :=
  { kind := str "respawn-purge"
    version := 1
    fabricId := str "fabric"
    path := str "a\",\"type\":\"respawn-anchor\",\"b\":\""
    content := str "c"
    chunksRemoved := 1
    chunksRetainedShared := 0
    manifestsTouched := 1
    auditLen := 1
    auditTip := str "tip"
    ts := 1 }

def smuggledText : Bytes := jsonCerts.payloadToJson smuggled

/-- The signature of the text. -/
def smuggledSig : Bytes := hexEncode (Anchor.padSignature Anchor.anchorSeed smuggledText)

/-- The certificate's payload and signature in an anchor file. -/
def smuggledAnchor : Bytes :=
  Json.print (documentMembers (str "respawn-anchor/v1") (hexEncode Anchor.anchorSeed) smuggledText
    smuggledSig)

/-- The signature is good, and the file is no anchor. -/
theorem smuggled_rejected : ∃ e, Anchor.checkedAnchor jsonAnchors smuggledAnchor = .error e := by
  have hall : (smuggled.members.all fun m => decide (Fits m)) = true := by decide +kernel
  have hfits : ∀ m ∈ smuggled.members, Fits m := by simpa using hall
  have hrejects := ((signatures_keep_to_their_purpose json_serde ⟨[str "w"]⟩).2.1 smuggled hfits).1
  have hdoc : jsonAnchors.anchorOfJson smuggledAnchor =
      .ok ⟨str "respawn-anchor/v1", hexEncode Anchor.anchorSeed, smuggledText, smuggledSig⟩ := by
    have hcodec : jsonAnchors.anchorOfJson = derive (documentOf Anchor.AnchorFile.mk) := rfl
    rw [hcodec, smuggledAnchor, derive_document]
  exact hrejects smuggledAnchor _ hdoc rfl

end Respawn
