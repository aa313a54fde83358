import Respawn.Boundary
import Respawn.Keygen

/-!
# When a purge stays inside the worktree

What a purge deletes is decided by the disk and the machine it starts on: the
objects of its sweep, the entry its path names if that still leads to a file
once the sweep is over (`Takes`), and the leftover key file where the key is
moved to the login keychain (`Keychain.Moves`).  `run_stays_inside_iff` says
from this when a purge stays inside the worktree and, of the fabric, deletes
only objects; a linked directory and a path of the fabric make it fail
(`run_leaves_worktree`).
-/

namespace Respawn

open ByteStr FileTree StateLogic

variable {X : Crates} {st : Store} {m : Machine}

/-! ## Deletions of a sequence -/

namespace Machine.Spared

variable {S S' : Path → Prop} {m₁ m₂ m₃ : Machine} {q : Path}

/-- What happened since goes through an intermediate state. -/
theorem since_trans (h : Machine.Spared S m₁ m₂) (h' : Machine.Spared S' m₂ m₃) :
    m₁.since m₃ = m₁.since m₂ ++ m₂.since m₃ := by
  obtain ⟨_, evs, htrace, _⟩ := h
  obtain ⟨_, evs', htrace', _⟩ := h'
  simp [Machine.since, htrace', htrace]

/-- A file is deleted by the whole when one of its parts deletes it. -/
theorem deleted_iff (h : Machine.Spared S m₁ m₂) (h' : Machine.Spared S' m₂ m₃) :
    Event.unlink q ∈ m₁.since m₃ ↔
      Event.unlink q ∈ m₁.since m₂ ∨ Event.unlink q ∈ m₂.since m₃ := by
  rw [since_trans h h', List.mem_append]

/-- What spares everything deletes nothing. -/
theorem not_deleted (h : Machine.Spared (fun _ => False) m₁ m₂) :
    Event.unlink q ∉ m₁.since m₂ := fun hq => h.mem_since hq

end Machine.Spared

/-- A sequence whose second part deletes nothing deletes what its first does. -/
theorem deleted_bind {α β : Type} {S : Path → Prop} {x : Sys α} {f : α → Sys β} {q : Path}
    (hx : After (x m) (fun _ => Machine.Spared S m) (fun _ => Machine.Spared S m))
    (hf : ∀ a m', Keeps (Machine.Spared (fun _ => False) m') (f a)) :
    Event.unlink q ∈ m.since (finalState ((x >>= f) m)) ↔
      Event.unlink q ∈ m.since (finalState (x m)) := by
  rw [bind_apply]
  cases hrun : x m with
  | error e m' => exact Iff.rfl
  | ok a m' =>
      have hquiet := (hf a m' m' (Machine.Spared.refl m')).final
      rw [Machine.Spared.deleted_iff (hx.ok hrun) hquiet]
      exact or_iff_left hquiet.not_deleted

/-- A system call changes the world only. -/
theorem Keeps.io {α : Type} {I : Machine → Prop} {k : Kernel α}
    (hI : ∀ m w, I m → I { m with toWorld := w }) : Keeps I (io k) := by
  intro m hm
  apply after_io
  cases k m.toWorld with
  | ok a w => exact hI m w hm
  | error e w => exact hI m w hm

/-! ## Records of the fabric -/

namespace Store.Real

variable {fs fs' : Fs} {n : Name}

/-- A record is found in its place. -/
theorem resolve_record {follow : Bool} (hreal : st.Real fs) (hn : ValidName n) :
    fs.resolve follow (st.fabricDir ++ [n]) = .ok (st.fabricDir ++ [n]) := by
  apply Fs.resolve_of_parent (Purge.record_names hreal hn) (by simp)
  · rw [List.dropLast_concat]
    exact hreal.dir
  · exact fun _ t => hreal.links _ t (List.prefix_append _ _)

/-- What is read of a record depends on its node alone. -/
theorem readToString_congr (hreal : st.Real fs) (hreal' : st.Real fs') (hn : ValidName n)
    (hsame : fs'.get (st.fabricDir ++ [n]) = fs.get (st.fabricDir ++ [n])) :
    fs'.readToString (st.fabricDir ++ [n]) = fs.readToString (st.fabricDir ++ [n]) := by
  simp only [Fs.readToString, Fs.read, Fs.metadata, resolve_record hreal hn,
    resolve_record hreal' hn, hsame]

/-- A record is reported missing when it is not there. -/
theorem readToString_notFound (hreal : st.Real fs) (hn : ValidName n) :
    fs.readToString (st.fabricDir ++ [n]) = .error .notFound ↔
      fs.get (st.fabricDir ++ [n]) = none := by
  constructor
  · intro hread
    cases hx : fs.get (st.fabricDir ++ [n]) with
    | none => rfl
    | some x =>
        cases x with
        | symlink t => exact absurd hx (hreal.links _ t (List.prefix_append _ _))
        | dir =>
            have hmeta := Fs.metadata_of_get hx (by simp)
            simp [Fs.readToString, Fs.read, hmeta] at hread
        | file d =>
            unfold Fs.readToString at hread
            rw [Fs.read_of_get hx] at hread
            simp only at hread
            split at hread <;> cases hread
  · intro hnone
    simp [Fs.readToString, Fs.read, Fs.metadata, resolve_record hreal hn, hnone]

end Store.Real

/-! ## The fabric's name -/

namespace Anchor

/-- The name the fabric has, or the one that it is given. -/
inductive Identity (st : Store) (m : Machine) : Bytes → Prop
  | named {text : Bytes} (h : m.fs.readToString (fabricIdPath st) = .ok text) :
      Identity st m (trim text)
  | minted {b : { b : Bytes // b.length = 32 }} {rest : List { b : Bytes // b.length = 32 }}
      (hnone : m.fs.get (fabricIdPath st) = none) (hseed : m.entropy = b :: rest)
      (hfree : m.fs.get (st.fabricDir ++ [tmpName m.pid m.tmpCounter (str "anchor")]) = none) :
      Identity st m (hexEncode b.val)

theorem fabricId_names (hreal : st.Real m.fs) : ∀ n ∈ fabricIdPath st, ValidName n :=
  Purge.record_names hreal (by decide)

theorem fabricId_parent (hreal : st.Real m.fs) :
    m.fs.get (fabricIdPath st).dropLast = some .dir := by
  rw [show (fabricIdPath st).dropLast = st.fabricDir from List.dropLast_concat]
  exact hreal.dir

/-- **The name is found** exactly where there is one, or a seed and room for it. -/
theorem fabricId_ok_iff {id : Bytes} (hreal : st.Real m.fs) :
    (∃ m', fabricId st m = .ok id m') ↔ Identity st m id := by
  have htag : ValidName (tmpName m.pid m.tmpCounter (str "anchor")) :=
    validName_tmpName (by decide) (by decide)
  have hdrop : (fabricIdPath st).dropLast = st.fabricDir := List.dropLast_concat
  constructor
  · intro h
    obtain ⟨m', h⟩ := h
    obtain ⟨found, m₀, hlook, hrest⟩ := bind_eq_ok.mp h
    obtain ⟨hfound, rfl⟩ := look_eq_ok.mp hlook
    cases hfound
    cases hread : m₀.fs.readToString (fabricIdPath st) with
    | ok text =>
        rw [hread] at hrest
        cases hrest
        exact .named hread
    | error e =>
        rw [hread] at hrest
        simp only at hrest
        split at hrest
        case isFalse => cases hrest
        case isTrue hmissing =>
          rw [hmissing] at hread
          have hnone := (hreal.readToString_notFound (n := str "fabric_id") (by decide)).mp hread
          obtain ⟨raw, m₁, hseed, hwrite⟩ := bind_eq_ok.mp hrest
          obtain ⟨_, m₂, hnote, hdone⟩ := bind_eq_ok.mp hwrite
          cases hdone
          unfold randomHex32 at hseed
          split at hseed
          · cases hseed
          case _ b rest hentropy =>
            cases hseed
            have hfree := Store.tmp_free_of_replaceFile (fabricId_names hreal) htag
              (m := { m₀ with entropy := rest }) (fabricId_parent hreal) hnote
            rw [hdrop] at hfree
            exact .minted hnone hentropy hfree
  · intro h
    cases h with
    | @named text hread =>
        refine ⟨m, ?_⟩
        unfold fabricId
        rw [bind_apply, look_get, hread]
        rfl
    | @minted b rest hnone hseed hfree =>
        obtain ⟨m', hwrite, -⟩ := @Store.replaceFile_of_free (str "anchor") (fabricIdPath st)
          (hexEncode b.val) { m with entropy := rest } (by simp [fabricIdPath])
          (fabricId_names hreal) htag (fabricId_parent hreal) (by rw [hnone]; simp)
          (by rw [hdrop]; exact hfree)
        refine ⟨m', ?_⟩
        have hread : m.fs.readToString (fabricIdPath st) = .error .notFound :=
          (hreal.readToString_notFound (by decide)).mpr hnone
        have hdraw : randomHex32 m = .ok (hexEncode b.val) { m with entropy := rest } := by
          unfold randomHex32
          rw [hseed]
        unfold fabricId atomicWrite
        rw [bind_apply, look_get, hread]
        simp only [if_true]
        rw [bind_apply, hdraw]
        simp only
        rw [bind_apply, hwrite]
        rfl

/-- There is one name at most. -/
theorem Identity.unique {id id' : Bytes} (hreal : st.Real m.fs) (h : Identity st m id)
    (h' : Identity st m id') : id = id' := by
  obtain ⟨m₁, hrun⟩ := (fabricId_ok_iff hreal).mpr h
  obtain ⟨m₂, hrun'⟩ := (fabricId_ok_iff hreal).mpr h'
  rw [hrun] at hrun'
  cases hrun'
  rfl

/-- The identity is no business of the keychain. -/
theorem fabricId_keychain {k : Keychain} :
    Keeps (fun m : Machine => m.keychain = k) (fabricId st) := by
  have hio : ∀ {α : Type} {call : Kernel α}, Keeps (fun m : Machine => m.keychain = k) (io call) :=
    Keeps.io fun _ _ h => h
  unfold fabricId
  apply Keeps.look.bind
  intro found
  cases found with
  | ok s => exact Keeps.pure _
  | error e =>
      apply Keeps.ite
      · apply Keeps.bind
        · intro m₁ h₁
          unfold randomHex32
          split <;> exact h₁
        · intro id
          unfold atomicWrite Store.replaceFile
          refine Keeps.bind (hio.bind fun _ => ?_) fun _ => Keeps.pure _
          apply Keeps.bind (x := tmpPath _ _) fun _ h => h
          exact fun _ => hio.bind fun _ => hio.bind fun _ => hio
      · exact fun _ h => h

/-- The other files of the fabric stay what they are. -/
theorem fabricId_frame {n : Name} (hreal : st.Real m.fs) (hn : n ≠ str "fabric_id")
    (hdot : n.head? ≠ some 46) {id : Bytes} {m' : Machine} (h : fabricId st m = .ok id m') :
    m'.fs.get (st.fabricDir ++ [n]) = m.fs.get (st.fabricDir ++ [n]) := by
  have htouched : After (fabricId st m) _ _ := fabricId_touching m hreal
  exact (htouched.ok h).frame _ (Store.not_within (by simpa using hn) hdot)

end Anchor

/-! ## The signing key -/

namespace Keychain

/-- The key is moved to the login keychain, or was: the file that held it is
removed when the key is looked up. -/
structure Moves (st : Store) (m : Machine) : Prop where
  macos : m.keychain.macos = true
  enabled : m.keychain.disabled = false
  leftover : ∃ id, Anchor.Identity st m id ∧
    ((∃ raw d, itemGet id m.keychain = .ok (some raw) ∧ m.fs.get (secretPath st) = some (.file d)) ∨
      ((∀ raw, itemGet id m.keychain ≠ .ok (some raw)) ∧ m.keychain.setError = none ∧
        ∃ raw, readSecretFile st m.fs = .ok (some raw)))

/-- The key file is deleted if it is there. -/
theorem removeSecret_deletes (hreal : st.Real m.fs) :
    Event.unlink (secretPath st) ∈ m.since (finalState (ignore (removeFile (secretPath st)) m)) ↔
      ∃ d, m.fs.get (secretPath st) = some (.file d) := by
  show Event.unlink (secretPath st) ∈ m.since
    { m with toWorld := finalState (removeFile (secretPath st) m.toWorld) } ↔ _
  constructor
  · intro h
    cases hremove : removeFile (secretPath st) m.toWorld with
    | error e w =>
        rw [hremove, removeFile_error hremove] at h
        exact absurd h (Machine.Spared.refl m).not_deleted
    | ok u w =>
        obtain ⟨q, x, hres, hleaf, rfl⟩ := removeFile_ok hremove
        have hq : q = secretPath st :=
          hreal.resolve_eq (List.prefix_append _ _) (secret_names hreal) hres
        obtain ⟨hget, hx⟩ := m.fs.leaf_eq_some.mp hleaf
        rw [hq] at hget
        cases x with
        | file d => exact ⟨d, hget⟩
        | dir => exact absurd rfl hx
        | symlink t => exact absurd hget (hreal.links _ t (List.prefix_append _ _))
  · intro h
    obtain ⟨d, hd⟩ := h
    have hleaf := m.fs.leaf_eq_some.mpr ⟨hd, by simp⟩
    rw [removeFile_of_leaf hleaf]
    simp [Machine.since, finalState, World.perform]

/-- A key that is read is in the file. -/
theorem file_of_readSecretFile {fs : Fs} {raw : Secret} (hreal : st.Real fs)
    (h : readSecretFile st fs = .ok (some raw)) : ∃ d, fs.get (secretPath st) = some (.file d) := by
  unfold readSecretFile at h
  cases hread : fs.readToString (secretPath st) with
  | error e =>
      rw [hread] at h
      cases e <;> cases h
  | ok text =>
      obtain ⟨d, hd, -⟩ :=
        (hreal.readToString_eq_ok (List.prefix_append _ _) (secret_names hreal)).mp hread
      exact ⟨d, hd⟩

/-- What is moved where the name is known. -/
theorem moves_iff {id : Bytes} (hreal : st.Real m.fs) (hmac : m.keychain.macos = true)
    (hable : m.keychain.disabled = false) (hident : Anchor.Identity st m id) :
    Moves st m ↔ (∃ raw d, itemGet id m.keychain = .ok (some raw) ∧
        m.fs.get (secretPath st) = some (.file d)) ∨
      ((∀ raw, itemGet id m.keychain ≠ .ok (some raw)) ∧ m.keychain.setError = none ∧
        ∃ raw, readSecretFile st m.fs = .ok (some raw)) := by
  constructor
  · intro h
    obtain ⟨id', hident', hcase⟩ := h.leftover
    rwa [hident'.unique hreal hident] at hcase
  · intro h
    exact ⟨hmac, hable, id, hident, h⟩

/-- The key is moved wherever the process and the fabric's other files are as
they were. -/
theorem Moves.congr {m' : Machine} (h : Moves st m) (hreal : st.Real m.fs)
    (hreal' : st.Real m'.fs) (hprocess : ∃ w, m' = { m with toWorld := w })
    (hsame : ∀ n, n ∉ Store.recordNames →
      m'.fs.get (st.fabricDir ++ [n]) = m.fs.get (st.fabricDir ++ [n])) : Moves st m' := by
  obtain ⟨w, rfl⟩ := hprocess
  obtain ⟨hmac, hable, id, hident, hcase⟩ := h
  have hsecret := hsame (str "anchor.secret") (by decide)
  have hread := hreal.readToString_congr hreal' (by decide) hsecret
  refine ⟨hmac, hable, id, ?_, hcase.imp ?_ ?_⟩
  · cases hident with
    | named htext =>
        exact .named ((hreal.readToString_congr hreal' (by decide)
          (hsame (str "fabric_id") (by decide))).trans htext)
    | minted hnone hseed hfree =>
        refine .minted ((hsame _ (by decide)).trans hnone) hseed ?_
        exact (hsame _ (Store.tmpName_not_record _ _ _)).trans hfree
  · intro hfound
    obtain ⟨raw, d, hitem, hd⟩ := hfound
    exact ⟨raw, d, hitem, hsecret.trans hd⟩
  · intro hfile
    obtain ⟨hitem, hset, raw, hraw⟩ := hfile
    refine ⟨hitem, hset, raw, ?_⟩
    unfold readSecretFile at hraw ⊢
    rw [show w.fs.readToString (secretPath st) = _ from hread]
    exact hraw

/-- A key that was found in the file is deleted there if the keychain takes it. -/
theorem migrate_deletes {id : Bytes} {raw : Secret} (hreal : st.Real m.fs)
    (hfile : ∃ d, m.fs.get (secretPath st) = some (.file d)) :
    Event.unlink (secretPath st) ∈ m.since (finalState (migrate st id raw m)) ↔
      m.keychain.setError = none := by
  unfold migrate
  rw [bind_apply]
  cases hset : m.keychain.setError with
  | some e =>
      have hstored : itemSet id raw m = .ok (.error e) m := by
        unfold itemSet
        rw [hset]
      rw [hstored]
      refine ⟨fun h => ?_, fun h => by cases h⟩
      exact absurd h (Machine.Spared.refl m).not_deleted
  | none =>
      obtain ⟨m₁, hstored, hworld⟩ : ∃ m₁ : Machine, itemSet id raw m = .ok (.ok ()) m₁ ∧
          m₁.toWorld = m.toWorld := by
        unfold itemSet
        rw [hset]
        exact ⟨_, rfl, rfl⟩
      have hreal₁ : st.Real m₁.fs := by rw [hworld]; exact hreal
      have hfile₁ : ∃ d, m₁.fs.get (secretPath st) = some (.file d) := by rw [hworld]; exact hfile
      have hsince : ∀ m₂ : Machine, m.since m₂ = m₁.since m₂ := by
        intro m₂
        simp only [Machine.since, hworld]
      rw [hstored]
      simp only
      refine ⟨fun _ => trivial, fun _ => ?_⟩
      rw [hsince, deleted_bind (removeSecret_spares hreal₁) fun _ _ => Keeps.pure _]
      exact (removeSecret_deletes hreal₁).mpr hfile₁

/-- The keychain has no key to offer: the file decides. -/
theorem fallBack_deletes {id : Bytes} {kcErr : Option Bytes} (hreal : st.Real m.fs) :
    Event.unlink (secretPath st) ∈ m.since (finalState (fallBack st id kcErr m)) ↔
      m.keychain.setError = none ∧ ∃ raw, readSecretFile st m.fs = .ok (some raw) := by
  have hnothing : Event.unlink (secretPath st) ∉ m.since m := (Machine.Spared.refl m).not_deleted
  unfold fallBack
  rw [bind_apply]
  unfold look
  cases hread : readSecretFile st m.fs with
  | error e =>
      refine ⟨fun h => absurd h hnothing, fun h => ?_⟩
      obtain ⟨_, raw, hraw⟩ := h
      cases hraw
  | ok found =>
      cases found with
      | none =>
          have hstays : ∀ e, finalState
              ((throw e : Sys (Secret × Placement × Option Bytes)) m) = m :=
            fun _ => rfl
          refine ⟨fun h => absurd h ?_, fun h => ?_⟩
          · cases kcErr <;> exact (hstays _).symm ▸ hnothing
          · obtain ⟨_, raw, hraw⟩ := h
            cases hraw
      | some raw =>
          simp only
          rw [migrate_deletes hreal (file_of_readSecretFile hreal hread)]
          simp

/-- A key that the keychain has is not kept in the file. -/
theorem found_deletes {α : Type} {a : α} (hreal : st.Real m.fs) :
    Event.unlink (secretPath st) ∈ m.since (finalState
        ((ignore (removeFile (secretPath st)) >>= fun _ => (pure a : Sys α)) m)) ↔
      ∃ d, m.fs.get (secretPath st) = some (.file d) := by
  rw [deleted_bind (removeSecret_spares hreal) fun _ _ => Keeps.pure _]
  exact removeSecret_deletes hreal

/-- **Looking up the key** deletes its file exactly where it is moved. -/
theorem get_deletes (hreal : st.Real m.fs) :
    Event.unlink (secretPath st) ∈ m.since (finalState (get st m)) ↔ Moves st m := by
  have hnothing : Event.unlink (secretPath st) ∉ m.since m := (Machine.Spared.refl m).not_deleted
  unfold get
  split
  case isFalse hfirst =>
    have hstays : finalState (getFromFile st m) = m := by
      unfold getFromFile
      rw [bind_apply]
      unfold look
      cases readSecretFile st m.fs with
      | error e => rfl
      | ok found => cases found <;> rfl
    rw [hstays]
    refine ⟨fun h => absurd h hnothing, fun h => ?_⟩
    exact absurd ⟨h.macos, by simp [h.enabled]⟩ hfirst
  case isTrue hfirst =>
    obtain ⟨hmac, hable⟩ := hfirst
    rw [Bool.not_eq_true] at hable
    have hquiet : After (Anchor.fabricId st m) _ _ :=
      Anchor.fabricId_spares m (Machine.Spared.refl (S := fun _ => False) m)
    have hkeeps := @Anchor.fabricId_keychain st m.keychain m rfl
    unfold getFromKeychain
    cases hid : Anchor.fabricId st m with
    | error e m₁ =>
        rw [bind_apply, hid]
        refine ⟨fun h => absurd h (hquiet.error hid).not_deleted, fun h => ?_⟩
        obtain ⟨id, hident, -⟩ := h.leftover
        obtain ⟨m₂, hrun⟩ := (Anchor.fabricId_ok_iff hreal).mpr hident
        rw [hid] at hrun
        cases hrun
    | ok id m₁ =>
        have hident := (Anchor.fabricId_ok_iff hreal).mp ⟨m₁, hid⟩
        have htouched : After (Anchor.fabricId st m) _ _ := Anchor.fabricId_after hreal
        have hreal₁ : st.Real m₁.fs := (htouched.ok hid).real
        have hsecret : m₁.fs.get (secretPath st) = m.fs.get (secretPath st) :=
          Anchor.fabricId_frame hreal (by decide) (by decide) hid
        have hread : m₁.fs.readToString (secretPath st) = m.fs.readToString (secretPath st) :=
          hreal.readToString_congr hreal₁ (by decide) hsecret
        have hsame : readSecretFile st m₁.fs = readSecretFile st m.fs := by
          unfold readSecretFile
          rw [hread]
        have hkeychain : m₁.keychain = m.keychain := hkeeps.ok hid
        -- nothing is deleted before the name is known
        have hthen : ∀ {x : Sys (Secret × Placement × Option Bytes)} {S : Path → Prop},
            After (x m₁) (fun _ => Machine.Spared S m₁) (fun _ => Machine.Spared S m₁) →
            (Event.unlink (secretPath st) ∈ m.since (finalState (x m₁)) ↔
              Event.unlink (secretPath st) ∈ m₁.since (finalState (x m₁))) := by
          intro x S hx
          rw [Machine.Spared.deleted_iff (hquiet.ok hid) hx.final]
          exact or_iff_right (hquiet.ok hid).not_deleted
        rw [moves_iff hreal hmac hable hident, bind_apply, hid]
        simp only
        rw [bind_apply, get_apply]
        simp only [hkeychain]
        cases hitem : itemGet id m.keychain with
        | error e =>
            rw [hthen (fallBack_spares id _ hreal₁), fallBack_deletes hreal₁, hkeychain, hsame]
            simp
        | ok found =>
            cases found with
            | none =>
                rw [hthen (fallBack_spares id _ hreal₁), fallBack_deletes hreal₁, hkeychain, hsame]
                simp
            | some raw =>
                have hremoved := hthen (x := ignore (removeFile (secretPath st)) >>= fun _ =>
                  pure (raw, .keychain, none)) ((removeSecret_spares hreal₁).bind fun _ _ h => h)
                rw [hremoved, found_deletes hreal₁, hsecret]
                simp

end Keychain

/-! ## The run -/

namespace Purge

variable {order : List Hash → List Hash} {root live : Path} {rel : Bytes} {p : Plan}

/-- The checks pass, and none of the chunks to delete has a directory in its
place: the purge ends its sweep. -/
structure Clears (X : Crates) (st : Store) (order : List Hash → List Hash) (root : Path)
    (rel : Bytes) (fs : Fs) (p : Plan) : Prop where
  plan : plan X st root rel fs = .ok p
  files : ∀ h ∈ unshared p.elsewhere (order p.chunks), fs.get (st.objectPath h) ≠ some .dir

/-- The path leads to a file that is none of these objects, or to the place of
the tombstones. -/
def Remains (st : Store) (chunks : List Hash) (live : Path) (fs : Fs) : Prop :=
  ∃ t, fs.resolve true live = .ok t ∧ (t = tombstonePath st ∨
    (∃ d, fs.get t = some (.file d)) ∧ ∀ h ∈ chunks, t ≠ st.objectPath h)

/-- The purge removes this entry: its path names it, and still leads to a file
once the sweep is over and the tombstone is written. -/
def Takes (X : Crates) (st : Store) (order : List Hash → List Hash) (root : Path) (rel : Bytes)
    (fs : Fs) (q : Path) : Prop :=
  ∃ p, Clears X st order root rel fs p ∧ fs.resolve false (p.rel.under root) = .ok q ∧
    Remains st (unshared p.elsewhere (order p.chunks)) (p.rel.under root) fs

/-- What the sweep and the tombstone have made of the machine. -/
structure Cleared (st : Store) (chunks : List Hash) (m m' : Machine) : Prop where
  real : st.Real m'.fs
  process : ∃ w, m' = { m with toWorld := w }
  spared : Machine.Spared (IsObject st) m m'
  shape : Fs.SameShape m.fs m'.fs
  buried : ∃ d, m'.fs.get (tombstonePath st) = some (.file d)
  gone : ∀ h ∈ chunks, m'.fs.get (st.objectPath h) = none
  frame : ∀ q, q ≠ tombstonePath st → (∀ h ∈ chunks, q ≠ st.objectPath h) →
    m'.fs.get q = m.fs.get q

/-- A sweep changes the disk alone. -/
theorem sweep_process {elsewhere chunks : List Hash} {counts : Nat × Nat} :
    Keeps (fun m' : Machine => ∃ w, m' = { m with toWorld := w })
      (sweep st elsewhere chunks counts) := by
  induction chunks generalizing counts with
  | nil => exact Keeps.pure _
  | cons ch rest ih =>
      obtain ⟨removed, shared⟩ := counts
      unfold sweep
      apply Keeps.ite ih
      apply Keeps.look.bind
      intro present
      apply Keeps.ite
      · refine Keeps.bind (Keeps.io ?_) fun _ => ih
        intro m₁ w h
        obtain ⟨_, rfl⟩ := h
        exact ⟨w, rfl⟩
      · exact ih

/-- The sweep ends and the tombstone is written. -/
theorem Clears.cleared (hreal : st.Real m.fs) (h : Clears X st order root rel m.fs p) :
    ∃ counts m₁ m₂, sweep st p.elsewhere (order p.chunks) (0, 0) m = .ok counts m₁ ∧
      bury X st p (unixSecs m₁.clock) m₁ = .ok () m₂ ∧
      Cleared st (unshared p.elsewhere (order p.chunks)) m m₂ := by
  have hsweep : After (sweep st p.elsewhere (order p.chunks) (0, 0) m) _ _ := sweep_after hreal
  cases hrun : sweep st p.elsewhere (order p.chunks) (0, 0) m with
  | error e m₁ =>
      obtain ⟨pre, g, post, hchunks, -, hdir⟩ := hsweep.error hrun
      exact absurd hdir (h.files g (by simp [hchunks]))
  | ok counts m₁ =>
      obtain ⟨hswept, -⟩ := hsweep.ok hrun
      have hspared : After (sweep st p.elsewhere (order p.chunks) (0, 0) m) _ _ :=
        sweep_spares hreal
      obtain ⟨w₁, hw₁⟩ := (@sweep_process st m _ _ _ m ⟨m.toWorld, rfl⟩).ok hrun
      obtain ⟨text, htext⟩ := hasText_of_plan hreal h.plan
      have htext₁ := hswept.hasText htext
      obtain ⟨w, d, hbury, hreal₂, hget, -, hframe⟩ : ∃ w d, bury X st p (unixSecs m₁.clock) m₁ =
          .ok () { m₁ with toWorld := w } ∧ _ := bury_ok hswept.touched.real htext₁
      have hkept := (bury_spares p (unixSecs m₁.clock) m₁
        (Machine.Spared.refl (S := IsObject st) m₁)).ok hbury
      refine ⟨counts, m₁, _, rfl, hbury, hreal₂, ⟨w, by rw [hw₁]⟩,
        (hspared.ok hrun).trans hkept,
        (hswept.sameShape hreal).trans (sameShape_of_buried htext₁ hget hframe), ⟨d, hget⟩, ?_, ?_⟩
      · intro g hg
        rw [show w.fs.get _ = _ from hframe _ (tombstonePath_ne_objectPath g).symm]
        exact hswept.gone g hg
      · intro q hne hobject
        rw [show w.fs.get q = _ from hframe q hne]
        apply hswept.touched.frame
        intro hq
        obtain ⟨g, hg, heq⟩ := hq
        exact hobject g hg heq

/-- A path leads to a file. -/
theorem isFile_iff {fs : Fs} : fs.isFile live = true ↔
    ∃ t d, fs.resolve true live = .ok t ∧ fs.get t = some (.file d) := by
  cases hres : fs.resolve true live with
  | error e => simp [Fs.isFile, Fs.metadata, hres]
  | ok t =>
      cases hx : fs.get t with
      | none => simp [Fs.isFile, Fs.metadata, hres, hx]
      | some x => cases x <;> simp [Fs.isFile, Fs.metadata, hres, hx]

/-- What the path leads to then. -/
theorem Cleared.isFile_iff {chunks : List Hash} {m' : Machine} (h : Cleared st chunks m m') :
    m'.fs.isFile live = true ↔ Remains st chunks live m.fs := by
  obtain ⟨dt, hdt⟩ := h.buried
  rw [Purge.isFile_iff]
  constructor
  · intro hfile
    obtain ⟨t, d, hres, hd⟩ := hfile
    refine ⟨t, Fs.resolve_shape h.shape.symm hres, ?_⟩
    by_cases htomb : t = tombstonePath st
    · exact Or.inl htomb
    · have hobject : ∀ g ∈ chunks, t ≠ st.objectPath g := by
        intro g hg heq
        rw [heq, h.gone g hg] at hd
        cases hd
      exact Or.inr ⟨⟨d, (h.frame t htomb hobject).symm.trans hd⟩, hobject⟩
  · intro hremains
    obtain ⟨t, hres, hcase⟩ := hremains
    by_cases htomb : t = tombstonePath st
    · exact ⟨t, dt, Fs.resolve_shape h.shape hres, htomb ▸ hdt⟩
    · obtain ⟨⟨d, hd⟩, hobject⟩ := hcase.resolve_left htomb
      exact ⟨t, d, Fs.resolve_shape h.shape hres, (h.frame t htomb hobject).trans hd⟩

/-- The live file is removed where there is one. -/
theorem removeLive_takes (live : Path) (m : Machine) :
    (m.fs.isFile live = false ∧ removeLive live m = .ok false m) ∨
      (m.fs.isFile live = true ∧ ∃ q x, m.fs.resolve false live = .ok q ∧ m.fs.leaf q = some x ∧
        removeLive live m = .ok true { m with toWorld := m.toWorld.perform (.unlink q) }) := by
  unfold removeLive
  rw [bind_apply, look_get]
  simp only
  cases hfile : m.fs.isFile live with
  | false => exact Or.inl ⟨rfl, rfl⟩
  | true =>
      refine Or.inr ⟨rfl, ?_⟩
      obtain ⟨t, d, hres, hd⟩ := isFile_iff.mp hfile
      obtain ⟨q, hentry⟩ := Fs.resolve_entry hres
      -- the entry is the file, or a link
      obtain ⟨x, hx, hdir⟩ : ∃ x, m.fs.get q = some x ∧ x ≠ .dir := by
        by_cases hlink : ∃ t, m.fs.get q = some (.symlink t)
        · obtain ⟨t, ht⟩ := hlink
          exact ⟨_, ht, by simp⟩
        · have hsame := Fs.resolve_follow (fun t ht => hlink ⟨t, ht⟩) hentry
          rw [Except.ok.inj (hsame.symm.trans hres)]
          exact ⟨_, hd, by simp⟩
      refine ⟨q, x, hentry, m.fs.leaf_eq_some.mpr ⟨hx, hdir⟩, ?_⟩
      have hremove : removeFile live m.toWorld = .ok () (m.toWorld.perform (.unlink q)) := by
        unfold removeFile
        rw [hentry]
        simp only [hx]
      simp only [if_true, bind_apply, io, hremove, pure_apply]

/-- Certifying deletes the key file at most. -/
theorem certified_spares {α : Type} {counts : Nat × Nat} {ts : Nat}
    {f : Path × Option Bytes → Sys α} (hreal : st.Real m.fs)
    (hf : ∀ a m', Keeps (Machine.Spared (fun _ => False) m') (f a)) :
    Machine.Spared (Keychain.Leftover st m.keychain) m
      (finalState ((certify X st p counts ts >>= f) m)) := by
  apply After.final (P := Machine.Spared (Keychain.Leftover st m.keychain) m)
  apply (certify_spares p counts ts hreal).bind
  intro a m' h'
  have hquiet := hf a m' m' (Machine.Spared.refl m')
  exact hquiet.mono (fun _ _ h => h'.trans (h.mono fun _ => False.elim))
    fun _ _ h => h'.trans (h.mono fun _ => False.elim)

/-- The certificate and the record of it delete the key file where it is moved,
and nothing else. -/
theorem certified_deletes {α : Type} {q : Path} {counts : Nat × Nat} {ts : Nat}
    {f : Path × Option Bytes → Sys α} (hreal : st.Real m.fs)
    (hf : ∀ a m', Keeps (Machine.Spared (fun _ => False) m') (f a)) :
    Event.unlink q ∈ m.since (finalState ((certify X st p counts ts >>= f) m)) ↔
      q = Keychain.secretPath st ∧ Keychain.Moves st m := by
  have hkey : After (Keychain.get st m) _ _ := Keychain.get_spares hreal
  rw [deleted_bind (certify_spares p counts ts hreal) hf]
  have hget : Event.unlink q ∈ m.since (finalState (certify X st p counts ts m)) ↔
      Event.unlink q ∈ m.since (finalState (Keychain.get st m)) := by
    unfold certify
    apply deleted_bind hkey
    intro key m'
    obtain ⟨raw, placement, note⟩ := key
    refine Keeps.look.bind fun tip => Anchor.fabricId_spares.bind fun fabricId => ?_
    apply (Keeps.spared_io (createDirAll_spares _)).bind
    intro _
    apply Keeps.bind (x := tmpPath (purgesDir st) (str "purge")) fun _ h => h
    intro tmp
    apply (Keeps.spared_io (writeFile_spares tmp _)).bind
    intro _
    exact (Keeps.spared_io (rename_spares tmp _)).bind fun _ => Keeps.pure _
  rw [hget, ← Keychain.get_deletes hreal]
  constructor
  · intro hq
    obtain ⟨rfl, -⟩ := hkey.final.mem_since hq
    exact ⟨rfl, hq⟩
  · intro h
    obtain ⟨rfl, hq⟩ := h
    exact hq

/-- A purge that does not end its sweep deletes objects only. -/
theorem run_of_not_clears (hreal : st.Real m.fs) (h : ∀ p, ¬ Clears X st order root rel m.fs p) :
    Machine.Spared (IsObject st) m (finalState (run X st order root rel m)) := by
  unfold run
  rw [bind_apply]
  cases hplan : plan X st root rel m.fs with
  | error e =>
      rw [look_eq_error.mpr ⟨hplan, rfl⟩]
      exact Machine.Spared.refl m
  | ok p =>
      rw [look_eq_ok.mpr ⟨hplan, rfl⟩]
      simp only
      have hspared : After (sweep st p.elsewhere (order p.chunks) (0, 0) m) _ _ :=
        sweep_spares hreal
      have hswept : After (sweep st p.elsewhere (order p.chunks) (0, 0) m) _ _ := sweep_after hreal
      rw [bind_apply]
      cases hrun : sweep st p.elsewhere (order p.chunks) (0, 0) m with
      | error e m₁ => exact hspared.error hrun
      | ok counts m₁ => exact absurd ⟨hplan, (hswept.ok hrun).1.files⟩ (h p)

/-- What the removal of the live file has made of the machine. -/
inductive Removed (live : Path) (m : Machine) : Machine → Prop
  | none (h : m.fs.isFile live = false) : Removed live m m
  | entry {q : Path} {x : Node} (h : m.fs.isFile live = true)
      (hres : m.fs.resolve false live = .ok q) (hleaf : m.fs.leaf q = some x) :
      Removed live m { m with toWorld := m.toWorld.perform (.unlink q) }

/-- **What a purge deletes** once its sweep is over. -/
theorem run_deletes (hreal : st.Real m.fs) (h : Clears X st order root rel m.fs p) :
    ∃ m₂ m₃, Cleared st (unshared p.elsewhere (order p.chunks)) m m₂ ∧
      Removed (p.rel.under root) m₂ m₃ ∧
      ∀ q, Event.unlink q ∈ m.since (finalState (run X st order root rel m)) ↔
        (Event.unlink q ∈ m.since m₂ ∨ Event.unlink q ∈ m₂.since m₃) ∨
          (q = Keychain.secretPath st ∧ Keychain.Moves st m₃) := by
  obtain ⟨counts, m₁, m₂, hsweep, hbury, hcleared⟩ := h.cleared hreal
  obtain ⟨b, m₃, hlive, hremoved⟩ : ∃ b m₃, removeLive (p.rel.under root) m₂ = .ok b m₃ ∧
      Removed (p.rel.under root) m₂ m₃ := by
    rcases removeLive_takes (p.rel.under root) m₂ with ⟨hno, hrun⟩ | ⟨hyes, q, x, hres, hleaf, hrun⟩
    · exact ⟨_, _, hrun, .none hno⟩
    · exact ⟨_, _, hrun, .entry hyes hres hleaf⟩
  refine ⟨m₂, m₃, hcleared, hremoved, ?_⟩
  intro q
  have hreal₃ : st.Real m₃.fs := by
    have hafter : After (removeLive (p.rel.under root) m₂) _ _ := removeLive_after hcleared.real
    exact (hafter.ok hlive).1.real
  have hspared : After (removeLive (p.rel.under root) m₂) _ _ := removeLive_spares _ m₂
  have hstart := hcleared.spared.deleted_iff (hspared.ok hlive) (q := q)
  have hbefore : Machine.Spared (fun q => IsObject st q ∨
      m₂.fs.resolve false (p.rel.under root) = .ok q) m m₃ :=
    (hcleared.spared.mono fun _ => Or.inl).trans ((hspared.ok hlive).mono fun _ => Or.inr)
  unfold run
  rw [bind_apply, look_eq_ok.mpr ⟨h.plan, rfl⟩]
  simp only
  rw [bind_apply, hsweep]
  simp only
  unfold finish
  rw [bind_apply, get_apply]
  simp only
  rw [bind_apply, hbury]
  simp only
  rw [bind_apply, hlive]
  simp only
  -- the certificate, the record of the event and the report
  rw [hbefore.deleted_iff (certified_spares hreal₃ ?_), certified_deletes hreal₃ ?_, hstart]
  · intro cert m'
    obtain ⟨certPath, note⟩ := cert
    exact (Audit.record_spares _ _).bind fun _ => Keeps.pure _
  · intro cert m'
    obtain ⟨certPath, note⟩ := cert
    exact (Audit.record_spares _ _).bind fun _ => Keeps.pure _

/-- The purge of `rel` that led from `m` to `m'` hashed and deleted nothing
outside the worktree, and deleted nothing in the fabric but objects. -/
structure StaysInside (st : Store) (rel : Bytes) (m m' : Machine) : Prop where
  reads : ∀ r q, sanitizeRel rel = .ok r → Hashes (r.under st.root) m.fs q → Revert.Below st.root q
  deletes : ∀ q, Event.unlink q ∈ m.since m' → Revert.Below st.root q
  fabric : ∀ q, Event.unlink q ∈ m.since m' → st.fabricDir <+: q → IsObject st q

/-- The path leads to no file outside the worktree; the entry that the purge
takes lies in the worktree and, if in the fabric, in the place of an object; and
no key is moved. -/
structure LeadsInside (X : Crates) (st : Store) (order : List Hash → List Hash) (rel : Bytes)
    (m : Machine) : Prop where
  hashed : ∀ r q, sanitizeRel rel = .ok r → Hashes (r.under st.root) m.fs q →
    Revert.Below st.root q
  entry : ∀ q, Takes X st order st.root rel m.fs q →
    Revert.Below st.root q ∧ (st.fabricDir <+: q → IsObject st q)
  key : ∀ p, Clears X st order st.root rel m.fs p → ¬ Keychain.Moves st m

/-- What lies in the fabric lies in the worktree. -/
theorem below_fabric {q : Path} (h : st.fabricDir <+: q) : Revert.Below st.root q := by
  obtain ⟨rest, rfl⟩ := h
  unfold Store.fabricDir
  rw [List.append_assoc]
  exact Revert.below_append (by simp)

theorem below_object {q : Path} (h : IsObject st q) : Revert.Below st.root q := by
  obtain ⟨c, rfl⟩ := h
  exact below_fabric (List.prefix_append _ _)

/-- An object's place is not directly in the fabric directory. -/
theorem not_object_record {n : Name} : ¬ IsObject st (st.fabricDir ++ [n]) := by
  intro h
  obtain ⟨c, hc⟩ := h
  have hlen := congrArg List.length hc
  simp [Store.objectPath, Store.fanPath] at hlen

/-- What the purge takes. -/
theorem Clears.takes {m₂ m₃ : Machine} {q : Path} (h : Clears X st order root rel m.fs p)
    (hcleared : Cleared st (unshared p.elsewhere (order p.chunks)) m m₂)
    (hremoved : Removed (p.rel.under root) m₂ m₃) :
    Event.unlink q ∈ m₂.since m₃ ↔ Takes X st order root rel m.fs q := by
  have hp : ∀ p', Clears X st order root rel m.fs p' → p' = p := by
    intro p' h'
    have hplan := h'.plan.symm.trans h.plan
    exact Except.ok.inj hplan
  constructor
  · intro hq
    cases hremoved with
    | none hno => exact absurd hq (Machine.Spared.refl m₂).not_deleted
    | @entry e x hyes hres hleaf =>
        have hqe : q = e := by simpa [Machine.since, World.perform] using hq
        rw [hqe]
        exact ⟨p, h, Fs.resolve_shape hcleared.shape.symm hres, hcleared.isFile_iff.mp hyes⟩
  · intro htakes
    obtain ⟨p', h', hres, hremains⟩ := htakes
    rw [hp p' h'] at hres hremains
    cases hremoved with
    | none hno =>
        rw [hcleared.isFile_iff.mpr hremains] at hno
        cases hno
    | @entry e x hyes hres' hleaf =>
        have heq := (Fs.resolve_shape hcleared.shape hres).symm.trans hres'
        rw [Except.ok.inj heq]
        simp [Machine.since, World.perform]

/-- Where the entry that is taken is harmless, the key is moved as from the start. -/
theorem Cleared.moves_iff {m₂ m₃ : Machine} {chunks : List Hash} (hreal : st.Real m.fs)
    (hcleared : Cleared st chunks m m₂) (hremoved : Removed live m₂ m₃)
    (hentry : ∀ q, Event.unlink q ∈ m₂.since m₃ → st.fabricDir <+: q → IsObject st q) :
    Keychain.Moves st m₃ ↔ Keychain.Moves st m := by
  obtain ⟨hreal₃, ⟨w, rfl⟩, hsame⟩ : st.Real m₃.fs ∧ (∃ w, m₃ = { m with toWorld := w }) ∧
      ∀ n, n ∉ Store.recordNames → m₃.fs.get (st.fabricDir ++ [n]) =
        m.fs.get (st.fabricDir ++ [n]) := by
    obtain ⟨w₂, hw₂⟩ := hcleared.process
    have hkept : ∀ n, n ∉ Store.recordNames → m₂.fs.get (st.fabricDir ++ [n]) =
        m.fs.get (st.fabricDir ++ [n]) := by
      intro n hn
      apply hcleared.frame
      · intro heq
        have hname := (List.cons.inj (List.append_cancel_left heq)).1
        exact hn (hname ▸ by decide)
      · exact fun g _ heq => not_object_record ⟨g, heq⟩
    cases hremoved with
    | none hno => exact ⟨hcleared.real, ⟨w₂, hw₂⟩, hkept⟩
    | @entry e x hyes hres hleaf =>
        refine ⟨(Store.Touched.of_unlink (S := fun _ => True) hcleared.real hleaf trivial).real,
          ⟨_, by rw [hw₂]⟩, ?_⟩
        intro n hn
        have hne : st.fabricDir ++ [n] ≠ e := by
          intro heq
          have htaken : Event.unlink e ∈ m₂.since
              { m₂ with toWorld := m₂.toWorld.perform (.unlink e) } := by
            simp [Machine.since, World.perform]
          exact not_object_record (heq ▸ hentry e htaken (heq ▸ List.prefix_append _ _))
        rw [← hkept n hn]
        exact (Fs.get_exec_unlink hleaf _).trans (if_neg hne)
  constructor
  · intro h
    exact h.congr hreal₃ hreal ⟨m.toWorld, rfl⟩ fun n hn => (hsame n hn).symm
  · intro h
    exact h.congr hreal hreal₃ ⟨w, rfl⟩ hsame

/-- **When a purge stays inside** the worktree and, of the fabric, deletes only
objects: exactly when its path leads inside and no key is moved. -/
theorem run_stays_inside_iff (X : Crates) (st : Store) (order : List Hash → List Hash)
    (rel : Bytes) (m : Machine) (hreal : st.Real m.fs) :
    StaysInside st rel m (finalState (run X st order st.root rel m)) ↔
      LeadsInside X st order rel m := by
  constructor
  · intro hinside
    have hentry : ∀ q, Takes X st order st.root rel m.fs q →
        Revert.Below st.root q ∧ (st.fabricDir <+: q → IsObject st q) := by
      intro q htakes
      obtain ⟨p, hclears, -⟩ := id htakes
      obtain ⟨m₂, m₃, hcleared, hremoved, hdeletes⟩ := run_deletes hreal hclears
      have htaken := (hclears.takes hcleared hremoved).mpr htakes
      have hq := (hdeletes q).mpr (Or.inl (Or.inr htaken))
      exact ⟨hinside.deletes q hq, hinside.fabric q hq⟩
    refine ⟨hinside.reads, hentry, ?_⟩
    intro p hclears hmoves
    obtain ⟨m₂, m₃, hcleared, hremoved, hdeletes⟩ := run_deletes hreal hclears
    have hmoves₃ := (hcleared.moves_iff hreal hremoved fun q hq =>
      (hentry q ((hclears.takes hcleared hremoved).mp hq)).2).mpr hmoves
    have hsecret := (hdeletes (Keychain.secretPath st)).mpr (Or.inr ⟨rfl, hmoves₃⟩)
    exact not_object_record (hinside.fabric _ hsecret (List.prefix_append _ _))
  · intro hleads
    have hdeleted : ∀ q, Event.unlink q ∈ m.since (finalState (run X st order st.root rel m)) →
        IsObject st q ∨ Takes X st order st.root rel m.fs q := by
      intro q hq
      by_cases hends : ∃ p, Clears X st order st.root rel m.fs p
      · obtain ⟨p, hclears⟩ := hends
        obtain ⟨m₂, m₃, hcleared, hremoved, hdeletes⟩ := run_deletes hreal hclears
        rcases (hdeletes q).mp hq with (hswept | htaken) | ⟨-, hmoves⟩
        · exact Or.inl (hcleared.spared.mem_since hswept)
        · exact Or.inr ((hclears.takes hcleared hremoved).mp htaken)
        · have hmoves₀ := (hcleared.moves_iff hreal hremoved fun q hq =>
            (hleads.entry q ((hclears.takes hcleared hremoved).mp hq)).2).mp hmoves
          exact absurd hmoves₀ (hleads.key p hclears)
      · have hspared := run_of_not_clears hreal fun p hp => hends ⟨p, hp⟩
        exact Or.inl (hspared.mem_since hq)
    refine ⟨hleads.hashed, ?_, ?_⟩
    · intro q hq
      rcases hdeleted q hq with hobject | htakes
      · exact below_object hobject
      · exact (hleads.entry q htakes).1
    · intro q hq hdir
      rcases hdeleted q hq with hobject | htakes
      · exact hobject
      · exact (hleads.entry q htakes).2 hdir

/-! ## Linked directories -/

/-- A worktree at `w` where `d` is a link out of the worktree and `l` one to the
directory `e`, each with a file `x` behind it, and the signing key in its file. -/
def linkedFabric : Fs :=
  Fs.build (Store.fabricNodes ⟨[str "w"]⟩ [] ++
    [(Keychain.secretPath ⟨[str "w"]⟩, Store.plainFile (hexEncode (List.replicate 32 7))),
     (Anchor.fabricIdPath ⟨[str "w"]⟩, Store.plainFile (str "fabric")),
     ([str "out"], .dir), ([str "out", str "x"], Store.plainFile (str "theirs")),
     ([str "w", str "d"], .symlink (str "/out")),
     ([str "w", str "e"], .dir), ([str "w", str "e", str "x"], Store.plainFile (str "ours")),
     ([str "w", str "l"], .symlink (str "e"))])

def linkedCrates : Crates := smallCrates [] [] []

/-- Purging a path there. -/
def linkedPurge (rel : Bytes) : EStateM.Result Error Machine PurgeReport :=
  run linkedCrates ⟨[str "w"]⟩ id [str "w"] rel (Machine.start linkedFabric)

theorem linkedFabric_real : Store.Real ⟨[str "w"]⟩ (Machine.start linkedFabric).fs :=
  Store.Real.of_keys (by decide +kernel) (by decide +kernel)

/-- Where the path to `x` behind the link `l` leads. -/
theorem linked_place {r : RelPath} (hrel : sanitizeRel (str "l/x") = .ok r) :
    linkedFabric.resolve true (r.under [str "w"]) = .ok [str "w", str "e", str "x"] ∧
      linkedFabric.resolve false (r.under [str "w"]) = .ok [str "w", str "e", str "x"] := by
  have hplace : ((sanitizeRel (str "l/x")).toOption.map fun r =>
      ((linkedFabric.resolve true (r.under [str "w"])).toOption,
        (linkedFabric.resolve false (r.under [str "w"])).toOption)) =
      some (some [str "w", str "e", str "x"], some [str "w", str "e", str "x"]) := by
    decide +kernel
  rw [hrel] at hplace
  have hboth := Option.some.inj hplace
  exact ⟨eq_ok_of_toOption (congrArg Prod.fst hboth), eq_ok_of_toOption (congrArg Prod.snd hboth)⟩

/-- Behind the link `l` the purge takes the file `x` in `e`, and nothing else. -/
theorem run_stays_inside_iff_linked :
    StaysInside ⟨[str "w"]⟩ (str "l/x") (Machine.start linkedFabric)
        (finalState (linkedPurge (str "l/x"))) ∧
      Event.unlink [str "w", str "e", str "x"] ∈ (Machine.start linkedFabric).since
        (finalState (linkedPurge (str "l/x"))) := by
  refine ⟨(run_stays_inside_iff linkedCrates ⟨[str "w"]⟩ id (str "l/x") (Machine.start linkedFabric)
    linkedFabric_real).mpr ⟨?_, ?_, ?_⟩, by decide +kernel⟩
  · intro r q hrel hhashes
    obtain ⟨-, hres⟩ := hhashes
    rw [Except.ok.inj (hres.symm.trans (linked_place hrel).1)]
    exact ⟨by decide, by decide⟩
  · intro q htakes
    obtain ⟨p, hclears, hres, -⟩ := htakes
    have hplace := (linked_place (plan_eq_ok hclears.plan).1).2
    rw [Except.ok.inj (hres.symm.trans hplace)]
    exact ⟨⟨by decide, by decide⟩, fun hdir => absurd hdir (by decide)⟩
  · intro p _ hmoves
    exact absurd hmoves.macos (by decide)

/-- **A purge leaves the worktree** through the link `d`: it hashes and deletes
the file `x` out there.  And it deletes the HEAD of the fabric when it is given
that path. -/
theorem run_leaves_worktree :
    (∃ r, sanitizeRel (str "d/x") = .ok r ∧
      Hashes (r.under [str "w"]) linkedFabric [str "out", str "x"]) ∧
    ¬ StaysInside ⟨[str "w"]⟩ (str "d/x") (Machine.start linkedFabric)
      (finalState (linkedPurge (str "d/x"))) ∧
    ¬ StaysInside ⟨[str "w"]⟩ (str ".respawn/HEAD") (Machine.start linkedFabric)
      (finalState (linkedPurge (str ".respawn/HEAD"))) := by
  refine ⟨?_, ?_, ?_⟩
  · obtain ⟨r, hrel⟩ : ∃ r, sanitizeRel (str "d/x") = .ok r := ⟨_, rfl⟩
    have hplace : ((sanitizeRel (str "d/x")).toOption.map fun r =>
        (linkedFabric.isFile (r.under [str "w"]),
          (linkedFabric.resolve true (r.under [str "w"])).toOption)) =
        some (true, some [str "out", str "x"]) := by decide +kernel
    rw [hrel] at hplace
    have hboth := Option.some.inj hplace
    exact ⟨r, hrel, congrArg Prod.fst hboth, eq_ok_of_toOption (congrArg Prod.snd hboth)⟩
  · intro hinside
    have hgone : Event.unlink [str "out", str "x"] ∈ (Machine.start linkedFabric).since
        (finalState (linkedPurge (str "d/x"))) := by decide +kernel
    exact absurd (hinside.deletes _ hgone).1 (by decide)
  · intro hinside
    have hgone : Event.unlink (Store.headPath ⟨[str "w"]⟩) ∈ (Machine.start linkedFabric).since
        (finalState (linkedPurge (str ".respawn/HEAD"))) := by decide +kernel
    exact not_object_record (hinside.fabric _ hgone (List.prefix_append _ _))

end Purge

end Respawn
