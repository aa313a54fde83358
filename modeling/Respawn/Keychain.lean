import Respawn.Capture

/-!
# The signing key and the fabric's identity

`anchor::fabric_id` reads the fabric's random id and mints it when it is
missing; `keychain::get` finds the signing key in the login keychain or in
`.respawn/anchor.secret`, and moves it from the file to the keychain when it
can.  On a real fabric both touch only files of their own (`Aside`).
-/

namespace Respawn

open ByteStr FileTree StateLogic

variable (X : Crates) (st : Store)

namespace Anchor

def fabricIdPath : Path := st.fabricDir ++ [str "fabric_id"]

/-- Thirty-two random bytes in hexadecimal. -/
def randomHex32 : Sys Bytes := fun m =>
  match m.entropy with
  | [] => .error (.io .other) m
  | b :: rest => .ok (hexEncode b.val) { m with entropy := rest }

/-- `atomic_write` of the anchors. -/
def atomicWrite (path : Path) (data : Bytes) : Sys Unit :=
  Store.replaceFile (str "anchor") path data

/-- Fabric identity: a random id, minted when there is none. -/
def fabricId : Sys Bytes := do
  let found ← look fun fs => .ok (fs.readToString (fabricIdPath st))
  match found with
  | .ok s => pure (trim s)
  | .error e =>
      if e = .notFound then do
        let id ← randomHex32
        atomicWrite (fabricIdPath st) id
        pure id
      else throw (.io e)

end Anchor

namespace Keychain

/-- Where a secret was found. -/
inductive Placement
  | keychain
  | file
  deriving DecidableEq

/-- The seed of a signing key. -/
abbrev Secret := { k : Bytes // k.length = 32 }

def secretPath : Path := st.fabricDir ++ [str "anchor.secret"]

/-- The key in the secret file, if there is one. -/
def readSecretFile (fs : Fs) : Except Error (Option Secret) :=
  match fs.readToString (secretPath st) with
  | .error .notFound => .ok none
  | .error e => .error (.io e)
  | .ok s => match hexDecode (trim s) with
    | none => .error (.corrupt (str "anchor secret is not hex"))
    | some raw =>
        if h : raw.length = 32 then .ok (some ⟨raw, h⟩)
        else .error (.corrupt (str "anchor secret is not 32 bytes"))

/-- `macos::get`: the item of an account, or the text of a refusal. -/
def itemGet (account : Bytes) (k : Keychain) : Except Bytes (Option Secret) :=
  match k.getError with
  | some e => .error e
  | none => match k.items account with
    | none => .ok none
    | some bytes =>
        if h : bytes.length = 32 then .ok (some ⟨bytes, h⟩)
        else .error (str "Keychain anchor item is not 32 bytes")

/-- `macos::set`: the item is stored, or the text of a refusal. -/
def itemSet (account : Bytes) (raw : Secret) : Sys (Except Bytes Unit) := fun m =>
  match m.keychain.setError with
  | some e => .ok (.error e) m
  | none =>
      .ok (.ok ()) { m with keychain := { m.keychain with
        items := fun a => if a = account then some raw.val else m.keychain.items a } }

/-- The complaint that there is no key. -/
def noKey : Error := .corrupt (str "no anchor key — run `respawn anchor keygen`")

/-- Load the key where only the file counts. -/
def getFromFile : Sys (Secret × Placement × Option Bytes) := do
  let found ← look (readSecretFile st)
  match found with
  | some raw => pure (raw, .file, none)
  | none => throw noKey

/-- Move a key that was found in the file to the keychain. -/
def migrate (id : Bytes) (raw : Secret) : Sys (Secret × Placement × Option Bytes) := do
  let stored ← itemSet id raw
  match stored with
  | .ok () => do
      ignore (removeFile (secretPath st))
      pure (raw, .keychain,
        some (str "migrated anchor key from .respawn/anchor.secret into login Keychain"))
  | .error e =>
      pure (raw, .file, some (str "Keychain unavailable (" ++ e ++ str ") — using key file"))

/-- The keychain has no key, or refused with the text `kcErr`: the file. -/
def fallBack (id : Bytes) (kcErr : Option Bytes) : Sys (Secret × Placement × Option Bytes) := do
  let found ← look (readSecretFile st)
  match found with
  | some raw => migrate st id raw
  | none => match kcErr with
    | some e =>
        throw (.corrupt (str "anchor key lookup failed (" ++ e ++
          str (") and no key file — if the key lives in Keychain, " ++
            "this session cannot reach it (locked keychain or no GUI session)")))
    | none => throw noKey

/-- Load the key where the keychain goes first. -/
def getFromKeychain : Sys (Secret × Placement × Option Bytes) := do
  let id ← Anchor.fabricId st
  let m ← get
  match itemGet id m.keychain with
  | .ok (some raw) => do
      -- a leftover file would bring an old key back
      ignore (removeFile (secretPath st))
      pure (raw, .keychain, none)
  | .ok none => fallBack st id none
  | .error e => fallBack st id (some e)

/-- Load the key: the key, where it came from, and a note for the operator. -/
def get : Sys (Secret × Placement × Option Bytes) := fun m =>
  if m.keychain.macos ∧ ¬ m.keychain.disabled then getFromKeychain st m else getFromFile st m

end Keychain

/-! ## What they touch -/

namespace Store

/-- The names under which the fabric directory holds objects, manifests, HEAD,
the tombstones and the audit log. -/
def recordNames : List Name :=
  [str "objects", str "manifests", str "HEAD", str "purged.jsonl", str "audit.jsonl"]

/-- A node of the fabric that belongs to none of these. -/
def Aside (st : Store) (q : Path) : Prop :=
  ∃ n rest, q = st.fabricDir ++ n :: rest ∧ n ∉ recordNames

variable {st}

/-- What lies on the way to a node aside, below the fabric directory. -/
theorem aside_of_prefix {p q : Path} (hp : st.Aside p) (hdir : st.fabricDir <+: q)
    (hne : q ≠ st.fabricDir) (hq : q <+: p) : st.Aside q := by
  obtain ⟨n, rest, rfl, hn⟩ := hp
  obtain ⟨tail, rfl⟩ := hdir
  have htail := (List.prefix_append_right_inj st.fabricDir).mp hq
  cases tail with
  | nil => exact absurd (List.append_nil _) hne
  | cons a tail => exact ⟨a, tail, rfl, (List.cons_prefix_cons.mp htail).1 ▸ hn⟩

/-- A path of the fabric under a record's name is not aside. -/
theorem not_aside {n : Name} {rest : Path} (hn : n ∈ recordNames) :
    ¬ st.Aside (st.fabricDir ++ n :: rest) := by
  intro h
  obtain ⟨n', rest', heq, hn'⟩ := h
  have hcons := List.append_cancel_left heq
  exact hn' ((List.cons.inj hcons).1 ▸ hn)

theorem tmpName_not_record (pid n : Nat) (tag : Bytes) : tmpName pid n tag ∉ recordNames := by
  intro h
  have hdot : ∀ r ∈ recordNames, r.head? ≠ some 46 := by decide
  exact hdot _ h rfl

end Store

section Touching

variable {st : Store} {m : Machine}

/-- Reading or minting the identity touches records of the key alone. -/
theorem Anchor.fabricId_after (hreal : st.Real m.fs) :
    After (Anchor.fabricId st m) (fun _ m' => st.Touched st.Aside m.fs m'.fs)
      (fun _ m' => st.Touched st.Aside m.fs m'.fs) := by
  have hsame := Store.Touched.refl (S := st.Aside) hreal
  have hside : st.Aside (fabricIdPath st) := ⟨str "fabric_id", [], rfl, by decide⟩
  have hdrop : (fabricIdPath st).dropLast = st.fabricDir := List.dropLast_concat
  have hnames : ∀ n ∈ fabricIdPath st, ValidName n := by
    intro n hn
    rcases List.mem_append.mp hn with hn | hn
    · exact m.fs.valid_of_get hreal.dir hn
    · rw [List.mem_singleton.mp hn]
      decide
  unfold fabricId
  rw [bind_apply, look_get]
  simp only
  cases m.fs.readToString (fabricIdPath st) with
  | ok s => exact hsame
  | error e =>
      simp only
      split
      · apply After.bind (P := fun _ m' => m'.fs = m.fs)
        · unfold randomHex32
          split
          · exact hsame
          · rfl
        · intro id m₁ hfs
          have hwrite : After (Store.replaceFile (str "anchor") (fabricIdPath st) id m₁) _ _ :=
            Store.Touched.of_replaceFile (S := st.Aside) (hfs ▸ hreal) (by rw [hdrop])
              (by simp [fabricIdPath]) hnames
            (fun n => validName_tmpName (by decide) (by decide))
            (fun q h₁ h₂ h₃ => Store.aside_of_prefix hside h₁ h₂ h₃)
            (fun n => ⟨_, [], by rw [hdrop], Store.tmpName_not_record _ _ _⟩)
          rw [hfs] at hwrite
          apply After.bind hwrite
          intro _ m' h
          exact h
      · exact hsame

namespace Keychain

/-- Removing the secret file, whether it is there or not. -/
theorem removeSecret_after (hreal : st.Real m.fs) :
    After (ignore (removeFile (secretPath st)) m)
      (fun _ m' => st.Touched st.Aside m.fs m'.fs)
      (fun _ m' => st.Touched st.Aside m.fs m'.fs) := by
  have hpath : st.fabricDir <+: secretPath st := List.prefix_append _ _
  have hnames : ∀ n ∈ secretPath st, ValidName n := by
    intro n hn
    rcases List.mem_append.mp hn with hn | hn
    · exact m.fs.valid_of_get hreal.dir hn
    · rw [List.mem_singleton.mp hn]
      decide
  have hremove := Store.Touched.of_removeFile (S := st.Aside) (p := secretPath st)
    (w := m.toWorld) hreal fun q hq => by
      rw [hreal.resolve_eq hpath hnames hq]
      exact ⟨str "anchor.secret", [], rfl, by decide⟩
  show st.Touched st.Aside m.fs (finalState (removeFile (secretPath st) m.toWorld)).fs
  apply After.final (P := fun w : World => st.Touched st.Aside m.fs w.fs)
  apply hremove.mono (fun _ _ h => h)
  intro _ w hw
  rw [hw]
  exact Store.Touched.refl hreal

/-- So does moving the key into the keychain. -/
theorem migrate_after (id : Bytes) (raw : Secret) (hreal : st.Real m.fs) :
    After (migrate st id raw m) (fun _ m' => st.Touched st.Aside m.fs m'.fs)
      (fun _ m' => st.Touched st.Aside m.fs m'.fs) := by
  unfold migrate
  apply After.bind (P := fun _ m' => m'.fs = m.fs)
  · unfold itemSet
    split <;> rfl
  · intro stored m₁ hfs
    cases stored with
    | error e =>
        rw [← hfs]
        exact Store.Touched.refl (hfs ▸ hreal)
    | ok u =>
        rw [← hfs]
        exact (removeSecret_after (hfs ▸ hreal)).bind fun _ _ h => h

/-- So does looking in the file when the keychain has no key. -/
theorem fallBack_after (id : Bytes) (kcErr : Option Bytes) (hreal : st.Real m.fs) :
    After (fallBack st id kcErr m) (fun _ m' => st.Touched st.Aside m.fs m'.fs)
      (fun _ m' => st.Touched st.Aside m.fs m'.fs) := by
  have hsame := Store.Touched.refl (S := st.Aside) hreal
  unfold fallBack
  apply After.bind (P := fun _ m' => m' = m)
  · exact after_look (fun _ _ => rfl) (fun _ _ => hsame)
  · intro found m' hm'
    subst hm'
    cases found with
    | some raw => exact migrate_after id raw hreal
    | none =>
        cases kcErr with
        | some e => exact hsame
        | none => exact hsame

/-- **Looking up the key** leaves the records of the fabric alone. -/
theorem get_after (hreal : st.Real m.fs) :
    After (get st m) (fun _ m' => st.Touched st.Aside m.fs m'.fs)
      (fun _ m' => st.Touched st.Aside m.fs m'.fs) := by
  unfold get
  split
  · unfold getFromKeychain
    apply After.bind (Anchor.fabricId_after hreal)
    intro id m₁ h₁
    have hthen : ∀ (x : Sys (Secret × Placement × Option Bytes)),
        After (x m₁) (fun _ m' => st.Touched st.Aside m₁.fs m'.fs)
          (fun _ m' => st.Touched st.Aside m₁.fs m'.fs) →
        After (x m₁) (fun _ m' => st.Touched st.Aside m.fs m'.fs)
          (fun _ m' => st.Touched st.Aside m.fs m'.fs) :=
      fun x h => h.mono (fun _ _ h' => h₁.trans h') fun _ _ h' => h₁.trans h'
    show After ((match itemGet id m₁.keychain with
      | .ok (some raw) => do
          ignore (removeFile (secretPath st))
          pure (raw, Placement.keychain, none)
      | .ok none => fallBack st id none
      | .error e => fallBack st id (some e) : Sys _) m₁) _ _
    cases itemGet id m₁.keychain with
    | error e => exact hthen _ (fallBack_after id _ h₁.real)
    | ok found =>
        cases found with
        | none => exact hthen _ (fallBack_after id _ h₁.real)
        | some raw => exact hthen _ ((removeSecret_after h₁.real).bind fun _ _ h => h)
  · have hsame := Store.Touched.refl (S := st.Aside) hreal
    unfold getFromFile
    apply After.bind (P := fun _ m' => m' = m)
    · exact after_look (fun _ _ => rfl) (fun _ _ => hsame)
    · intro found m' hm'
      subst hm'
      cases found with
      | some raw => exact hsame
      | none => exact hsame

end Keychain

end Touching

end Respawn
