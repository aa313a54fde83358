import Mathlib.Logic.Relation
import Respawn.Reach

/-!
# Making the signing key

`keygen` makes a key where it finds none, and `keychain::put` keeps it in the
login keychain or, where that refuses or is switched off, in the secret file.
`keychain::exists` looks only where the call can look: a key that lies in the
keychain alone is not found by a call that cannot read it, and such a call makes
a second key.  `key_never_swapped` is about the runs without such a call.
-/

namespace Respawn

open ByteStr FileTree StateLogic

variable (X : Crates) (st : Store)

namespace Keychain

/-- Write the key file with mode 0600 from birth. -/
def writeSecretFile (path : Path) (data : Bytes) : Sys Unit := do
  io (createDirAll path.dropLast)
  let tmp ← tmpPath path.dropLast (str "secret")
  let f ← io (createNew tmp 0o600)
  io (writeAll f data)
  io (rename tmp path)

/-- Is there a key in the keychain, as far as this call can tell? -/
def inKeychain : Sys Bool := fun m =>
  if m.keychain.macos ∧ ¬ m.keychain.disabled then
    match Anchor.fabricId st m with
    | .error _ m' => .ok false m'
    | .ok id m' => match itemGet id m'.keychain with
      | .ok (some _) => .ok true m'
      | _ => .ok false m'
  else .ok false m

/-- Store a fresh key in the file. -/
def putInFile (raw : Secret) : Sys Unit := writeSecretFile (secretPath st) (hexEncode raw.val)

/-- Store a fresh key where the keychain goes first. -/
def putInKeychain (raw : Secret) : Sys (Placement × Option Bytes) := do
  let id ← Anchor.fabricId st
  let stored ← itemSet id raw
  match stored with
  | .ok () => pure (.keychain, none)
  | .error e => do
      putInFile st raw
      pure (.file, some (str "Keychain unavailable (" ++ e ++ str ") — key stored in " ++
        display (secretPath st) ++ str " (0600)"))

/-- Store a freshly generated key: where it is now, and a note. -/
def put (raw : Secret) : Sys (Placement × Option Bytes) := fun m =>
  if m.keychain.macos ∧ ¬ m.keychain.disabled then putInKeychain st raw m
  else (do
    putInFile st raw
    pure (.file, none) : Sys (Placement × Option Bytes)) m

end Keychain

/-- True if a signing key exists in either store. -/
def Keychain.exists : Sys Bool := do
  let onDisk ← look fun fs => .ok (fs.exists (Keychain.secretPath st))
  if onDisk then pure true else Keychain.inKeychain st

namespace Anchor

/-- Thirty-two random bytes. -/
def randomSeed : Sys Keychain.Secret := fun m =>
  match m.entropy with
  | [] => .error (.io .other) m
  | b :: rest => .ok b { m with entropy := rest }

/-- Generate the signing key: its public half, and a note. -/
def keygen : Sys (Bytes × Option Bytes) := do
  let present ← Keychain.exists st
  if present then throw (.corrupt (str "anchor key already exists"))
  else do
    let raw ← randomSeed
    let _ ← fabricId st
    let (_, note) ← Keychain.put st raw
    pure (hexEncode (X.verifyingKey raw.val), note)

end Anchor

/-! ## The two stores -/

namespace Keychain

variable {X st} {id : Bytes} {key : Option Secret} {m : Machine}

/-- The fabric has this identity. -/
def Named (st : Store) (id : Bytes) (fs : Fs) : Prop :=
  ∃ d, fs.get (Anchor.fabricIdPath st) = some (.file d) ∧ validUtf8 d.bytes = true ∧
    trim d.bytes = id

/-- On macOS, a fabric of this identity whose stores hold no key but this one:
it is in one of them or in both. -/
structure Holds (st : Store) (id : Bytes) (key : Option Secret) (m : Machine) : Prop where
  real : st.Real m.fs
  macos : m.keychain.macos = true
  named : Named st id m.fs
  file : ∀ x, m.fs.get (secretPath st) = some x →
    ∃ k d, key = some k ∧ x = .file d ∧ d.bytes = hexEncode k.val
  item : ∀ b, m.keychain.items id = some b → ∃ k, key = some k ∧ b = k.val
  somewhere : key ≠ none →
    m.fs.get (secretPath st) ≠ none ∨ m.keychain.items id ≠ none

/-- The call cannot see the key: it lies in the keychain alone, whose use is
switched off or which refuses to be read. -/
def Blind (st : Store) (id : Bytes) (m : Machine) : Prop :=
  m.fs.get (secretPath st) = none ∧ m.keychain.items id ≠ none ∧
    (m.keychain.disabled = true ∨ m.keychain.getError ≠ none)

theorem secret_prefix : st.fabricDir <+: secretPath st := List.prefix_append _ _

theorem secret_names {fs : Fs} (hreal : st.Real fs) : ∀ n ∈ secretPath st, ValidName n :=
  Purge.record_names hreal (by decide)

/-- A fabric whose identity is there says so and does nothing. -/
theorem fabricId_of_named (hnamed : Named st id m.fs) : Anchor.fabricId st m = .ok id m := by
  obtain ⟨d, hd, hutf8, htrim⟩ := hnamed
  unfold Anchor.fabricId Fs.readToString
  rw [bind_apply, look_get]
  simp only [Fs.read_of_get hd, hutf8, if_true, htrim]
  rfl

/-- The key in the file is read. -/
theorem readSecretFile_of_file {fs : Fs} {k : Secret} {d : FileData}
    (hfile : fs.get (secretPath st) = some (.file d)) (hbytes : d.bytes = hexEncode k.val) :
    readSecretFile st fs = .ok (some k) := by
  unfold readSecretFile Fs.readToString
  rw [Fs.read_of_get hfile, hbytes]
  simp only [validUtf8_hexEncode, if_true, trim_hexEncode, hexDecode_hexEncode, k.2, dif_pos]

/-- A missing file has no key. -/
theorem readSecretFile_of_none {fs : Fs} (hreal : st.Real fs)
    (hnone : fs.get (secretPath st) = none) : readSecretFile st fs = .ok none := by
  have hres : fs.resolve true (secretPath st) = .ok (secretPath st) :=
    Fs.resolve_of_parent (secret_names hreal) (by simp [secretPath])
      (by rw [secretPath, List.dropLast_concat]; exact hreal.dir) (by simp [hnone])
  unfold readSecretFile Fs.readToString Fs.read Fs.metadata
  simp only [hres, hnone]

/-! ## What the calls do -/

/-- A call that sees the key finds it; without a key there is none to find. -/
theorem exists_eq (h : Holds st id key m) (hsees : ¬ Blind st id m) :
    Keychain.exists st m = .ok key.isSome m := by
  have hpath : m.fs.exists (secretPath st) = true ↔ m.fs.get (secretPath st) ≠ none :=
    h.real.exists_iff secret_prefix (secret_names h.real)
  unfold Keychain.exists
  rw [bind_apply, look_get]
  simp only
  by_cases hdisk : m.fs.exists (secretPath st) = true
  · rw [if_pos hdisk]
    obtain ⟨x, hx⟩ := Option.ne_none_iff_exists'.mp (hpath.mp hdisk)
    obtain ⟨k, _, rfl, _⟩ := h.file x hx
    rfl
  · rw [if_neg hdisk]
    have hnone : m.fs.get (secretPath st) = none := by
      by_contra hsome
      exact hdisk (hpath.mpr hsome)
    unfold inKeychain
    rw [fabricId_of_named h.named]
    simp only
    cases hitem : m.keychain.items id with
    | none =>
        -- no item: whatever the call can see, there is no key
        have hkey : key = none := by
          by_contra hsome
          rcases h.somewhere hsome with hfile | hin
          · exact hfile hnone
          · exact hin hitem
        rw [hkey]
        split
        · unfold itemGet
          cases m.keychain.getError with
          | some e => rfl
          | none =>
              simp only [hitem]
              rfl
        · rfl
    | some b =>
        obtain ⟨k, rfl, rfl⟩ := h.item b hitem
        have hsees' : ¬ m.keychain.disabled = true ∧ m.keychain.getError = none := by
          by_contra hnot
          apply hsees
          refine ⟨hnone, by simp [hitem], ?_⟩
          by_cases hdis : m.keychain.disabled = true
          · exact Or.inl hdis
          · exact Or.inr fun herr => hnot ⟨hdis, herr⟩
        rw [if_pos ⟨h.macos, hsees'.1⟩]
        unfold itemGet
        simp only [hsees'.2, hitem, k.2, dif_pos]
        rfl

/-- What the secret file says is the key. -/
theorem readSecretFile_eq (h : Holds st id key m) :
    ∃ found, readSecretFile st m.fs = .ok found ∧ ∀ k, found = some k → key = some k := by
  cases hget : m.fs.get (secretPath st) with
  | none => exact ⟨none, readSecretFile_of_none h.real hget, fun _ hk => absurd hk (by simp)⟩
  | some x =>
      obtain ⟨k, d, hkey, rfl, hbytes⟩ := h.file x hget
      exact ⟨some k, readSecretFile_of_file hget hbytes, fun _ hk => hk ▸ hkey⟩

/-- What the keychain yields is the key. -/
theorem itemGet_eq (h : Holds st id key m) {k : Secret}
    (hitem : itemGet id m.keychain = .ok (some k)) :
    key = some k ∧ m.keychain.items id = some k.val := by
  unfold itemGet at hitem
  split at hitem
  · cases hitem
  · split at hitem
    · cases hitem
    case _ b hb =>
      obtain ⟨k', hkey, rfl⟩ := h.item b hb
      rw [dif_pos k'.2] at hitem
      cases hitem
      exact ⟨hkey, hb⟩

/-- Where the keychain has the key, the file may go. -/
theorem removeSecret_holds {k : Secret} (h : Holds st id (some k) m)
    (hitem : m.keychain.items id = some k.val) :
    After (ignore (removeFile (secretPath st)) m) (fun _ => Holds st id (some k))
      (fun _ => Holds st id (some k)) := by
  have hremoved : After (removeFile (secretPath st) m.toWorld)
      (fun _ w => Holds st id (some k) { m with toWorld := w })
      (fun _ w => Holds st id (some k) { m with toWorld := w }) := by
    cases hrun : removeFile (secretPath st) m.toWorld with
    | error e w =>
        rw [removeFile_error hrun]
        exact h
    | ok u w =>
        obtain ⟨q, x, hres, hleaf, rfl⟩ := removeFile_ok hrun
        have hq : q = secretPath st := h.real.resolve_eq secret_prefix (secret_names h.real) hres
        subst hq
        have hget := Fs.get_exec_unlink hleaf
        have hother : Anchor.fabricIdPath st ≠ secretPath st := fun heq =>
          absurd (List.append_cancel_left heq) (by decide)
        obtain ⟨d, hd, hname⟩ := h.named
        refine ⟨(Store.Touched.of_unlink (S := fun _ => True) h.real hleaf trivial).real,
          h.macos, ⟨d, ?_, hname⟩, ?_, h.item, fun _ => Or.inr (by simp [hitem])⟩
        · exact (hget _).trans ((if_neg hother).trans hd)
        · intro x hx
          have hgone : (m.fs.exec (.unlink (secretPath st))).get (secretPath st) = none :=
            (hget _).trans (if_pos rfl)
          exact absurd (hgone.symm.trans hx) (by simp)
  show Holds st id (some k)
    { m with toWorld := finalState (removeFile (secretPath st) m.toWorld) }
  exact After.final (P := fun w => Holds st id (some k) { m with toWorld := w }) hremoved

/-- Storing the key in the keychain, next to where it may be already. -/
theorem itemSet_holds {k : Secret} (h : Holds st id key m)
    (hkey : key = none ∨ key = some k) :
    After (itemSet id k m)
      (fun stored m' => m'.fs = m.fs ∧ match stored with
        | .ok () => Holds st id (some k) m' ∧ m'.keychain.items id = some k.val
        | .error _ => m' = m)
      (fun _ _ => False) := by
  unfold itemSet
  cases m.keychain.setError with
  | some e => exact ⟨rfl, rfl⟩
  | none =>
      have hitem : (if id = id then some k.val else m.keychain.items id) = some k.val := if_pos rfl
      refine ⟨rfl, ⟨h.real, h.macos, h.named, ?_, ?_, ?_⟩, hitem⟩
      · intro x hx
        obtain ⟨k', d, hk', hfile⟩ := h.file x hx
        rcases hkey with rfl | rfl
        · cases hk'
        · exact ⟨k', d, hk', hfile⟩
      · intro b hb
        exact ⟨k, rfl, (Option.some.inj (hitem.symm.trans hb)).symm⟩
      · intro _
        exact Or.inr fun hnone => absurd (hitem.symm.trans hnone) (by simp)

/-- Moving the key into the keychain keeps it the key. -/
theorem migrate_holds {k : Secret} (h : Holds st id (some k) m) :
    After (migrate st id k m) (fun r m' => r.1 = k ∧ Holds st id (some k) m')
      (fun _ => Holds st id (some k)) := by
  unfold migrate
  apply After.bind ((itemSet_holds h (Or.inr rfl)).mono (fun _ _ h => h) fun _ _ h => h.elim)
  intro stored m₁ h₁
  cases stored with
  | error e =>
      rw [h₁.2]
      exact ⟨rfl, h⟩
  | ok u =>
      apply After.bind (removeSecret_holds h₁.2.1 h₁.2.2)
      intro _ m₂ h₂
      exact ⟨rfl, h₂⟩

/-- The key that is looked up in the file is the key. -/
theorem fallBack_holds (h : Holds st id key m) (kcErr : Option Bytes) :
    After (fallBack st id kcErr m) (fun r m' => key = some r.1 ∧ Holds st id key m')
      (fun _ => Holds st id key) := by
  obtain ⟨found, hfound, hkey⟩ := readSecretFile_eq h
  unfold fallBack
  apply after_look_bind
  · intro found' hfound'
    rw [hfound] at hfound'
    cases hfound'
    cases found with
    | some k =>
        obtain rfl := hkey k rfl
        apply (migrate_holds h).mono
        · intro r m' h'
          exact ⟨congrArg some h'.1.symm, h'.2⟩
        · exact fun _ _ h' => h'
    | none =>
        cases kcErr with
        | some e => exact h
        | none => exact h
  · intro e he
    exact h

/-- **Loading the key** yields the key there is, and keeps it. -/
theorem get_holds (h : Holds st id key m) :
    After (Keychain.get st m) (fun r m' => key = some r.1 ∧ Holds st id key m')
      (fun _ => Holds st id key) := by
  unfold Keychain.get
  split
  · unfold getFromKeychain
    rw [bind_apply, fabricId_of_named h.named]
    simp only [bind_apply, get_apply]
    cases hitem : itemGet id m.keychain with
    | error e => exact fallBack_holds h _
    | ok found =>
        cases found with
        | none => exact fallBack_holds h _
        | some k =>
            obtain ⟨rfl, hin⟩ := itemGet_eq h hitem
            apply After.bind (removeSecret_holds h hin)
            intro _ m' h'
            exact ⟨rfl, h'⟩
  · obtain ⟨found, hfound, hkey⟩ := readSecretFile_eq h
    unfold getFromFile
    apply after_look_bind
    · intro found' hfound'
      rw [hfound] at hfound'
      cases hfound'
      cases found with
      | some k => exact ⟨hkey k rfl, h⟩
      | none => exact h
    · intro e he
      exact h

/-- The key goes to the file, where there was none. -/
theorem putInFile_holds {k : Secret} (h : Holds st id none m) :
    After (putInFile st k m) (fun _ => Holds st id (some k)) (fun _ => Holds st id none) := by
  have hdrop : (secretPath st).dropLast = st.fabricDir := List.dropLast_concat
  have hin : st.fabricDir <+: (secretPath st).dropLast := by rw [hdrop]
  have hne : secretPath st ≠ [] := by simp [secretPath]
  have hitems : m.keychain.items id = none := by
    cases hitem : m.keychain.items id with
    | none => rfl
    | some b =>
        obtain ⟨k', hk', _⟩ := h.item b hitem
        cases hk'
  -- neither the key file nor the identity stands above the key file
  have habove : ∀ {n : Name} {fs fs' : Fs},
      KeptUpTo (secretPath st).dropLast fs fs' (st.fabricDir ++ [n]) →
      fs'.get (st.fabricDir ++ [n]) = fs.get (st.fabricDir ++ [n]) := by
    intro n fs fs' hkept
    rcases hkept with heq | ⟨hpre, _⟩
    · exact heq
    · have hlen := hpre.length_le
      rw [hdrop, List.length_append, List.length_singleton] at hlen
      omega
  have hwritten : After (putInFile st k m)
      (fun _ m' => Wrote (secretPath st) (hexEncode k.val) m m')
      (fun _ m' => Missed (str "secret") (secretPath st) m m') :=
    Store.replaceVia_after hne (secret_names h.real)
      (fun n => validName_tmpName (by decide) (by decide)) fun pre hpre => h.real.noLink hin hpre
  obtain ⟨d, hd, hname⟩ := h.named
  apply hwritten.mono
  · intro _ m' hw
    have hother : Anchor.fabricIdPath st ≠ secretPath st := fun heq =>
      absurd (List.append_cancel_left heq) (by decide)
    obtain ⟨d', hfile, hbytes⟩ := hw.file
    refine ⟨h.real.wrote hin hne hw, hw.ran.keychain ▸ h.macos, ⟨d, ?_, hname⟩, ?_, ?_, ?_⟩
    · exact (habove (hw.frame _ hother)).trans hd
    · intro x hx
      exact ⟨k, d', rfl, Option.some.inj (hx.symm.trans hfile), hbytes⟩
    · intro b hb
      rw [hw.ran.keychain, hitems] at hb
      cases hb
    · intro _
      exact Or.inl (by simp [hfile])
  · intro _ m' hmissed
    have hkept : ∀ n, (∀ i, n ≠ tmpName m.pid i (str "secret")) →
        m'.fs.get (st.fabricDir ++ [n]) = m.fs.get (st.fabricDir ++ [n]) := by
      intro n hn
      rcases hmissed.frame (st.fabricDir ++ [n]) with hkept | ⟨⟨i, heq⟩, _⟩
      · exact habove hkept
      · rw [hdrop] at heq
        exact absurd (List.cons.inj (List.append_cancel_left heq)).1 (hn i)
    have hdot : ∀ n : Name, n.head? ≠ some 46 → ∀ i, n ≠ tmpName m.pid i (str "secret") := by
      intro n hn i heq
      rw [heq] at hn
      exact hn rfl
    refine ⟨h.real.missed hin hmissed, hmissed.ran.keychain ▸ h.macos, ⟨d, ?_, hname⟩, ?_, ?_,
      fun hnone => absurd rfl hnone⟩
    · exact (hkept _ (hdot _ (by decide))).trans hd
    · intro x hx
      exact h.file x ((hkept _ (hdot _ (by decide))).symm.trans hx)
    · intro b hb
      exact h.item b (hmissed.ran.keychain ▸ hb)

/-- Where there was no key the new one is the key. -/
theorem put_holds {k : Secret} (h : Holds st id none m) :
    After (Keychain.put st k m) (fun _ => Holds st id (some k)) (fun _ => Holds st id none) := by
  unfold Keychain.put
  split
  · unfold putInKeychain
    rw [bind_apply, fabricId_of_named h.named]
    apply After.bind ((itemSet_holds h (Or.inl rfl)).mono (fun _ _ h => h) fun _ _ h => h.elim)
    intro stored m₁ h₁
    cases stored with
    | ok u => exact h₁.2.1
    | error e =>
        rw [h₁.2]
        apply After.bind (putInFile_holds h)
        intro _ m₂ h₂
        exact h₂
  · apply After.bind (putInFile_holds h)
    intro _ m' h'
    exact h'

/-- What is held depends on the disk and the keychain alone. -/
theorem Holds.congr {m' : Machine} (h : Holds st id key m) (hfs : m'.fs = m.fs)
    (hkeys : m'.keychain = m.keychain) : Holds st id key m' := by
  refine ⟨hfs ▸ h.real, hkeys ▸ h.macos, hfs ▸ h.named, ?_, ?_, ?_⟩
  · rw [hfs]
    exact h.file
  · rw [hkeys]
    exact h.item
  · rw [hfs, hkeys]
    exact h.somewhere

/-- **Making a key** where a key can be seen is refused. -/
theorem keygen_refuses {k : Secret} (h : Holds st id (some k) m) (hsees : ¬ Blind st id m) :
    Anchor.keygen X st m = .error (.corrupt (str "anchor key already exists")) m := by
  unfold Anchor.keygen
  rw [bind_apply, exists_eq h hsees]
  rfl

/-- **Making a key** where there is none: the new key is kept, or nothing is. -/
theorem keygen_makes (h : Holds st id none m) :
    After (Anchor.keygen X st m)
      (fun r m' => ∃ k, m.entropy.head? = some k ∧ r.1 = hexEncode (X.verifyingKey k.val) ∧
        Holds st id (some k) m')
      (fun _ => Holds st id none) := by
  have hsees : ¬ Blind st id m := by
    intro hblind
    obtain ⟨b, hb⟩ := Option.ne_none_iff_exists'.mp hblind.2.1
    obtain ⟨k, hk, _⟩ := h.item b hb
    cases hk
  unfold Anchor.keygen
  rw [bind_apply, exists_eq h hsees]
  show After ((Anchor.randomSeed >>= fun raw => _) m) _ _
  rw [bind_apply]
  unfold Anchor.randomSeed
  cases hentropy : m.entropy with
  | nil => exact h
  | cons k rest =>
      have h₁ : Holds st id none { m with entropy := rest } := h.congr rfl rfl
      simp only
      rw [bind_apply, fabricId_of_named h₁.named]
      simp only
      apply After.bind (put_holds (k := k) h₁)
      intro r m₂ h₂
      exact ⟨k, rfl, rfl, h₂⟩

/-! ## Runs -/

/-- What may change between two calls: the state of the keychain, the random
strings, the process and everything on the disk but the fabric's identity and
the secret file. -/
structure Between (st : Store) (id : Bytes) (m m' : Machine) : Prop where
  real : st.Real m'.fs
  identity : m'.fs.get (Anchor.fabricIdPath st) = m.fs.get (Anchor.fabricIdPath st)
  secret : m'.fs.get (secretPath st) = m.fs.get (secretPath st)
  macos : m'.keychain.macos = m.keychain.macos
  items : m'.keychain.items id = m.keychain.items id

/-- One step of a run in which keys are made only in states with `P`. -/
inductive Step (X : Crates) (st : Store) (id : Bytes) (P : Machine → Prop) :
    Machine → Machine → Prop
  | keygen {m : Machine} : P m → Step X st id P m (finalState (Anchor.keygen X st m))
  | get {m : Machine} : Step X st id P m (finalState (Keychain.get st m))
  | between {m m' : Machine} : Between st id m m' → Step X st id P m m'

/-- Calls one after another, and the time between them. -/
abbrev Run (X : Crates) (st : Store) (id : Bytes) (P : Machine → Prop) :=
  Relation.ReflTransGen (Step X st id P)

/-- What lies in the stores is not changed between the calls. -/
theorem Between.holds {m' : Machine} (hbetween : Between st id m m') (h : Holds st id key m) :
    Holds st id key m' := by
  obtain ⟨d, hd, hname⟩ := h.named
  refine ⟨hbetween.real, hbetween.macos.trans h.macos,
    ⟨d, hbetween.identity.trans hd, hname⟩, ?_, ?_, ?_⟩
  · rw [hbetween.secret]
    exact h.file
  · rw [hbetween.items]
    exact h.item
  · rw [hbetween.secret, hbetween.items]
    exact h.somewhere

/-- **A key that is there stays**, where no key is made blindly. -/
theorem step_holds {k : Secret} {m' : Machine} (h : Holds st id (some k) m)
    (hstep : Step X st id (fun m => ¬ Blind st id m) m m') : Holds st id (some k) m' := by
  cases hstep with
  | keygen hsees =>
      rw [keygen_refuses h hsees]
      exact h
  | get =>
      apply After.final (P := Holds st id (some k))
      exact (get_holds h).mono (fun _ _ h' => h'.2) fun _ _ h' => h'
  | between hbetween => exact hbetween.holds h

/-- A key that is held stays held as long as no call is blind. -/
theorem run_holds {k : Secret} {m' : Machine} (h : Holds st id (some k) m)
    (hrun : Run X st id (fun m => ¬ Blind st id m) m m') : Holds st id (some k) m' := by
  induction hrun with
  | refl => exact h
  | tail _ hstep ih => exact step_holds ih hstep

/-- A run from stores with one key or none leads to such stores. -/
theorem run_holds_some_key {m' : Machine} (h : Holds st id key m)
    (hrun : Run X st id (fun m => ¬ Blind st id m) m m') : ∃ key', Holds st id key' m' := by
  induction hrun with
  | refl => exact ⟨key, h⟩
  | tail _ hstep ih =>
      obtain ⟨key', h'⟩ := ih
      cases key' with
      | some k => exact ⟨some k, step_holds h' hstep⟩
      | none =>
          cases hstep with
          | keygen hsees =>
              apply After.final (P := fun m' => ∃ key', Holds st id key' m')
              apply (keygen_makes (X := X) h').mono
              · intro _ _ h₁
                obtain ⟨k, _, _, h₁⟩ := h₁
                exact ⟨some k, h₁⟩
              · exact fun _ _ h₁ => ⟨none, h₁⟩
          | get =>
              refine ⟨none, After.final (P := Holds st id none) ?_⟩
              exact (get_holds h').mono (fun _ _ h₁ => h₁.2) fun _ _ h₁ => h₁
          | between hbetween => exact ⟨none, hbetween.holds h'⟩

/-- **The key is never swapped** in a run whose `keygen` calls can see the key
wherever there is one: after a `keygen` that succeeded another succeeds only
where it is blind, and whoever loads a key loads the first one. -/
theorem key_never_swapped {m₀ m₁ m₂ : Machine} {pub : Bytes} {note : Option Bytes}
    (h : Holds st id key m₀) (hrun : Run X st id (fun m => ¬ Blind st id m) m₀ m)
    (hsees : ¬ Blind st id m) (hmade : Anchor.keygen X st m = .ok (pub, note) m₁)
    (hlater : Run X st id (fun m => ¬ Blind st id m) m₁ m₂) :
    (∀ r m₃, Anchor.keygen X st m₂ = .ok r m₃ → Blind st id m₂) ∧
      ∀ r m₃, Keychain.get st m₂ = .ok r m₃ →
        m.entropy.head? = some r.1 ∧ pub = hexEncode (X.verifyingKey r.1.val) := by
  obtain ⟨key', h'⟩ := run_holds_some_key h hrun
  cases key' with
  | some k =>
      rw [keygen_refuses h' hsees] at hmade
      cases hmade
  | none =>
      obtain ⟨k, hfirst, hpub, h₁⟩ := (keygen_makes (X := X) h').ok hmade
      have h₂ := run_holds h₁ hlater
      constructor
      · intro r m₃ hagain
        by_contra hsees₂
        rw [keygen_refuses h₂ hsees₂] at hagain
        cases hagain
      · intro r m₃ hget
        obtain ⟨hkey, _⟩ := (get_holds h₂).ok hget
        obtain rfl := Option.some.inj hkey
        exact ⟨hfirst, hpub⟩

/-- The same for runs in which any call may be blind. -/
def NeverSwapped (X : Crates) (st : Store) (id : Bytes) : Prop :=
  ∀ m₀ m m₁ m₂ r, Holds st id none m₀ → Run X st id (fun _ => True) m₀ m →
    Anchor.keygen X st m = .ok r m₁ → Run X st id (fun _ => True) m₁ m₂ →
    (∀ r' m₃, Anchor.keygen X st m₂ ≠ .ok r' m₃) ∧
      ∀ r' m₃, Keychain.get st m₂ = .ok r' m₃ → m.entropy.head? = some r'.1

/-! ## A blind call -/

/-- Two seeds. -/
def firstSeed : Secret := ⟨List.replicate 32 1, by decide⟩

def secondSeed : Secret := ⟨List.replicate 32 2, by decide⟩

/-- A fabric named `f` on a machine whose keychain can be reached. -/
def keyMachine : Machine :=
  { Machine.start (Fs.build (Store.fabricNodes ⟨[str "w"]⟩ [] ++
      [(Anchor.fabricIdPath ⟨[str "w"]⟩, Store.plainFile (str "f"))])) with
    keychain := ⟨true, false, fun _ => none, none, none⟩
    entropy := [firstSeed, secondSeed] }

/-- After the first key was made: it went to the keychain. -/
def keyed : Machine := finalState (Anchor.keygen (smallCrates [] [] []) ⟨[str "w"]⟩ keyMachine)

/-- A session of its own, with the keychain switched off. -/
def keyedOff : Machine := { keyed with keychain := { keyed.keychain with disabled := true } }

/-- The machine starts without a key. -/
theorem keyMachine_holds : Holds ⟨[str "w"]⟩ (str "f") none keyMachine := by
  have hfile : keyMachine.fs.get (secretPath ⟨[str "w"]⟩) = none := by decide +kernel
  refine ⟨Store.Real.of_keys (by decide +kernel) (by decide +kernel), rfl,
    ⟨⟨str "f", defaultMode, 0⟩, by decide +kernel, by decide +kernel, by decide +kernel⟩, ?_, ?_,
    fun hnone => absurd rfl hnone⟩
  · intro x hx
    rw [hfile] at hx
    cases hx
  · intro b hb
    cases hb

theorem keyed_made : Anchor.keygen (smallCrates [] [] []) ⟨[str "w"]⟩ keyMachine =
    .ok (hexEncode firstSeed.val, none) keyed :=
  eq_ok_of_yields (by decide +kernel)

/-- Somebody loads a key there. -/
def loaded (m : Machine) : Machine := finalState (Keychain.get ⟨[str "w"]⟩ m)

/-- The keychain is switched off, or on again. -/
def switched (off : Bool) (m : Machine) : Machine :=
  { m with keychain := { m.keychain with disabled := off } }

theorem switched_between {off : Bool} (hreal : Store.Real ⟨[str "w"]⟩ m.fs) :
    Between ⟨[str "w"]⟩ (str "f") m (switched off m) :=
  ⟨hreal, rfl, rfl, rfl, rfl⟩

theorem loaded_step {P : Machine → Prop} :
    Step (smallCrates [] [] []) ⟨[str "w"]⟩ (str "f") P m (loaded m) := .get

/-- A load has failed, and the keychain is switched off. -/
def unkeyed : Machine := switched true (loaded keyMachine)

/-- A key is made: it goes to the file. -/
def filed : Machine := finalState (Anchor.keygen (smallCrates [] [] []) ⟨[str "w"]⟩ unkeyed)

/-- The key is loaded from the file, and, once the keychain is on again, moved
there by the next load. -/
def moved : Machine := loaded (switched false (loaded filed))

/-- The first key is the only one, wherever it went. -/
theorem key_never_swapped_moved :
    (∀ r m₃, Anchor.keygen (smallCrates [] [] []) ⟨[str "w"]⟩ moved = .ok r m₃ →
        Blind ⟨[str "w"]⟩ (str "f") moved) ∧
      (∀ r m₃, Keychain.get ⟨[str "w"]⟩ moved = .ok r m₃ →
        unkeyed.entropy.head? = some r.1 ∧ hexEncode firstSeed.val = hexEncode r.1.val) ∧
      moved.fs.get (secretPath ⟨[str "w"]⟩) = none ∧
      moved.keychain.items (str "f") = some firstSeed.val := by
  have hearlier : Run (smallCrates [] [] []) ⟨[str "w"]⟩ (str "f")
      (fun m => ¬ Blind ⟨[str "w"]⟩ (str "f") m) keyMachine unkeyed :=
    (Relation.ReflTransGen.single loaded_step).tail (.between (switched_between
      (Store.Real.of_keys (by decide +kernel) (by decide +kernel))))
  have hmade : Anchor.keygen (smallCrates [] [] []) ⟨[str "w"]⟩ unkeyed =
      .ok (hexEncode firstSeed.val, none) filed := eq_ok_of_yields (by decide +kernel)
  have hlater : Run (smallCrates [] [] []) ⟨[str "w"]⟩ (str "f")
      (fun m => ¬ Blind ⟨[str "w"]⟩ (str "f") m) filed moved :=
    ((Relation.ReflTransGen.single loaded_step).tail (.between (switched_between
      (Store.Real.of_keys (by decide +kernel) (by decide +kernel))))).tail loaded_step
  have hsees : ¬ Blind ⟨[str "w"]⟩ (str "f") unkeyed := by
    intro hblind
    exact absurd hblind.2.1 (by decide +kernel)
  obtain ⟨hagain, hloads⟩ := key_never_swapped keyMachine_holds hearlier hsees hmade hlater
  exact ⟨hagain, hloads, by decide +kernel, by decide +kernel⟩

/-- The second call makes a second key, and that is the one to be loaded. -/
theorem keyedOff_swaps :
    (∃ m₃, Anchor.keygen (smallCrates [] [] []) ⟨[str "w"]⟩ keyedOff =
      .ok (hexEncode secondSeed.val, none) m₃) ∧
    ∃ m₄, Keychain.get ⟨[str "w"]⟩
      (finalState (Anchor.keygen (smallCrates [] [] []) ⟨[str "w"]⟩ keyedOff)) =
      .ok (secondSeed, Placement.file, none) m₄ :=
  ⟨⟨_, eq_ok_of_yields (by decide +kernel)⟩, ⟨_, eq_ok_of_yields (by decide +kernel)⟩⟩

/-- A keychain that is switched off lets a second key be made. -/
theorem key_swapped : ¬ NeverSwapped (smallCrates [] [] []) ⟨[str "w"]⟩ (str "f") := by
  intro hnever
  have hreal : Store.Real ⟨[str "w"]⟩ keyedOff.fs :=
    Store.Real.of_keys (by decide +kernel) (by decide +kernel)
  have hoff : Step (smallCrates [] [] []) ⟨[str "w"]⟩ (str "f") (fun _ => True) keyed keyedOff :=
    .between ⟨hreal, rfl, rfl, rfl, rfl⟩
  obtain ⟨⟨m₃, hagain⟩, _⟩ := keyedOff_swaps
  exact (hnever _ _ _ _ _ keyMachine_holds .refl keyed_made (.single hoff)).1 _ _ hagain

end Keychain

end Respawn
