import Respawn.Fleet
import Respawn.Keygen
import Respawn.Loading

/-!
# Runs of fleet orders

Any files may be presented to `apply`, in any order and any number of times.
Only a payload that the pinned key signed for this fabric moves HEAD, the
worktree or the newest time stamp noted, and no order that is applied is older
than one before it (`orders_act`).  The pin, the identity and the note lie in
the fabric, so the snapshots landed on must keep out of it (`Outside`).
-/

namespace Respawn

open ByteStr FileTree StateLogic

/-- No entry of the manifest belongs into the fabric directory. -/
def Revert.Outside (st : Store) (files : List FileEntry) : Prop :=
  ∀ fe ∈ files, ∀ q, destination st.root fe = some q → ¬ st.fabricDir <+: q

/-- A revert to such a manifest touches nothing in the fabric but its temporary
directory. -/
theorem Revert.tmp_of_touches {st : Store} {files : List FileEntry} {fs : Fs} {q : Path}
    (hout : Outside st files) (h : Touches st files fs q) (hq : st.fabricDir <+: q) :
    tmpDir st <+: q := by
  rcases h with hnot | htmp | ⟨fe, hfe, dest, hdest, rfl | ⟨hpre, _⟩⟩
  · exact absurd hq hnot
  · exact htmp
  · exact absurd hq (hout fe hfe _ hdest)
  · exact absurd (hq.trans hpre) (hout fe hfe _ hdest)

namespace Fleet

variable (F : FleetCrates) (st : Store)

/-- The fleet key pinned in the fabric. -/
def Pins (pin : Bytes) (fs : Fs) : Prop :=
  ∃ d, fs.get (fleetKeyPath st) = some (.file d) ∧ validUtf8 d.bytes = true ∧ trim d.bytes = pin

/-- HEAD, the worktree and the newest time stamp noted are as they were. -/
def Unmoved (fs fs' : Fs) : Prop :=
  Inert st fs fs' ∧ fs'.get (seenPath st) = fs.get (seenPath st)

/-- A call of `apply`: the state it starts from, and its arguments. -/
structure Call where
  before : Machine
  orderPath : Path
  source : Option (Bytes × Sync.Peer)
  force : Bool

/-- What the call yields. -/
def Call.result (c : Call) : EStateM.Result Error Machine Hash :=
  apply F st c.orderPath c.source c.force c.before

/-- The state it leaves. -/
def Call.after (c : Call) : Machine := finalState (c.result F st)

/-- The file presented carries this payload, signed by the pinned key for the
fabric. -/
structure Authentic (pin : Bytes) (c : Call) (p : OrderPayload) : Prop where
  signed : ∃ bytes o pk sig, c.before.fs.read c.orderPath = .ok bytes ∧
    F.orderOfJson bytes = .ok o ∧ o.pubkey = pin ∧ hexDecode o.pubkey = some pk ∧
    hexDecode o.sig = some sig ∧ F.isKey pk = true ∧ F.verify pk o.payload sig = true ∧
    F.orderPayloadOfJson o.payload = .ok p
  here : ∀ id, Keychain.Named st id c.before.fs → p.fabricId = id
  named : Keychain.Named st p.fabricId (c.after F st).fs

/-- A run of calls on a fabric with a pinned key, the latest first.  Between
them anything may happen outside the fabric directory. -/
inductive Calls (pin : Bytes) : Fs → List Call → Prop
  | start {fs : Fs} (hreal : st.Real fs) (hpins : Pins st pin fs) : Calls pin fs []
  | call {calls : List Call} (c : Call) (run : Calls pin c.before.fs calls)
      (houtside : ∀ mf, Lands F st c.before c.orderPath c.source mf →
        Revert.Outside st mf.files) : Calls pin (c.after F st).fs (c :: calls)
  | edit {fs fs' : Fs} {calls : List Call} (run : Calls pin fs calls)
      (houtside : ∀ q, st.fabricDir <+: q → fs'.get q = fs.get q) : Calls pin fs' calls

variable {F st} {m m' : Machine} {orderPath : Path} {source : Option (Bytes × Sync.Peer)}
  {force : Bool}

/-! ## The checks -/

/-- The identity that is read or minted is noted. -/
theorem named_of_fabricId {id : Bytes} (hreal : st.Real m.fs)
    (h : Anchor.fabricId st m = .ok id m') :
    Keychain.Named st id m'.fs ∧ ∀ id', Keychain.Named st id' m.fs → id = id' := by
  have hunique : ∀ id', Keychain.Named st id' m.fs → id = id' := by
    intro id' hnamed
    rw [Keychain.fabricId_of_named hnamed] at h
    cases h
    rfl
  refine ⟨?_, hunique⟩
  have hnames : ∀ n ∈ Anchor.fabricIdPath st, ValidName n :=
    Purge.record_names hreal (by decide)
  obtain ⟨found, m₀, hlook, hrest⟩ := bind_eq_ok.mp h
  obtain ⟨hfound, rfl⟩ := look_eq_ok.mp hlook
  cases hfound
  cases hread : m₀.fs.readToString (Anchor.fabricIdPath st) with
  | ok s =>
      rw [hread] at hrest
      cases hrest
      obtain ⟨d, hd, hutf8, rfl⟩ :=
        (hreal.readToString_eq_ok (List.prefix_append _ _) hnames).mp hread
      exact ⟨d, hd, hutf8, rfl⟩
  | error e =>
      rw [hread] at hrest
      simp only at hrest
      split at hrest
      · obtain ⟨raw, m₁, hseed, hwrite⟩ := bind_eq_ok.mp hrest
        obtain ⟨_, m₂, hnote, hdone⟩ := bind_eq_ok.mp hwrite
        cases hdone
        unfold Anchor.randomHex32 at hseed
        split at hseed
        · cases hseed
        case _ b rest _ =>
          cases hseed
          have hdrop : (Anchor.fabricIdPath st).dropLast = st.fabricDir := List.dropLast_concat
          have hwrote := (Store.replaceFile_after (m := { m₀ with entropy := rest })
            (by simp [Anchor.fabricIdPath]) hnames
            (fun n => validName_tmpName (by decide) (by decide))
            (fun pre hpre => hreal.noLink (by rw [hdrop]) hpre)).ok hnote
          obtain ⟨d, hd, hbytes⟩ := hwrote.file
          refine ⟨d, hd, ?_, ?_⟩
          · rw [hbytes]
            exact validUtf8_hexEncode _
          · rw [hbytes]
            exact trim_hexEncode _
      · cases hrest

/-- The signer that passes is the pinned key, and the signature is its own. -/
theorem signed_of_checkSigner {o : FleetOrder} {fs : Fs} {pin : Bytes} {u : Unit}
    (hpins : Pins st pin fs) (h : checkSigner F st o fs = .ok u) :
    o.pubkey = pin ∧ ∃ pk sig, hexDecode o.pubkey = some pk ∧ hexDecode o.sig = some sig ∧
      F.isKey pk = true ∧ F.verify pk o.payload sig = true := by
  obtain ⟨d, hd, hutf8, rfl⟩ := hpins
  unfold checkSigner Fs.readToString at h
  rw [Fs.read_of_get hd] at h
  simp only [hutf8, if_true] at h
  split at h
  · cases h
  case _ hkey =>
    refine ⟨not_not.mp hkey, ?_⟩
    split at h
    · cases h
    case _ pk hpk =>
      split at h
      · cases h
      · split at h
        · cases h
        case _ hiskey =>
          split at h
          · cases h
          case _ sig hsig =>
            split at h
            · cases h
            · split at h
              · cases h
              case _ hverify =>
                exact ⟨pk, sig, hpk, hsig, not_not.mp hiskey, not_not.mp hverify⟩

/-- What an order that passed the checks has shown. -/
theorem accept_ok {a : Accepted} {m₁ : Machine} (h : accept F st orderPath m = .ok a m₁) :
    ∃ bytes o, m.fs.read orderPath = .ok bytes ∧ readOrder F bytes = .ok (o, a.payload) ∧
      checkSigner F st o m.fs = .ok () ∧ Anchor.fabricId st m = .ok a.payload.fabricId m₁ ∧
      parseHash a.payload.target = .ok a.target := by
  obtain ⟨bytes, m₂, hread, hrest⟩ := bind_eq_ok.mp h
  obtain ⟨hbytes, rfl⟩ := look_eq_ok.mp hread
  obtain ⟨⟨o, payload⟩, m₃, hparse, hrest₁⟩ := bind_eq_ok.mp hrest
  obtain ⟨hparsed, rfl⟩ := look_eq_ok.mp hparse
  obtain ⟨_, m₄, hcheck, hrest₂⟩ := bind_eq_ok.mp hrest₁
  obtain ⟨hsigner, rfl⟩ := look_eq_ok.mp hcheck
  obtain ⟨fabricId, m₅, hid, hrest₃⟩ := bind_eq_ok.mp hrest₂
  have hfile : m₄.fs.read orderPath = .ok bytes := by
    cases hr : m₄.fs.read orderPath with
    | ok b =>
        rw [hr] at hbytes
        exact congrArg Except.ok (Except.ok.inj hbytes)
    | error e =>
        rw [hr] at hbytes
        cases hbytes
  by_cases hother : payload.fabricId ≠ fabricId
  · rw [if_pos hother] at hrest₃
    cases hrest₃
  rw [if_neg hother] at hrest₃
  obtain ⟨last, m₆, hlast, hrest₄⟩ := bind_eq_ok.mp hrest₃
  obtain ⟨_, rfl⟩ := look_eq_ok.mp hlast
  by_cases hstale : payload.ts < last
  · rw [if_pos hstale] at hrest₄
    cases hrest₄
  rw [if_neg hstale] at hrest₄
  obtain ⟨target, m₇, htarget, hdone⟩ := bind_eq_ok.mp hrest₄
  obtain ⟨hhash, rfl⟩ := look_eq_ok.mp htarget
  cases hdone
  exact ⟨bytes, o, hfile, hparsed, hsigner, not_not.mp hother ▸ hid, hhash⟩

/-- An order that is read is an order and its payload. -/
theorem readOrder_ok {bytes : Bytes} {o : FleetOrder} {p : OrderPayload}
    (h : readOrder F bytes = .ok (o, p)) :
    F.orderOfJson bytes = .ok o ∧ F.orderPayloadOfJson o.payload = .ok p := by
  have hjson : ∀ {α : Type} {r : Except Bytes α} {a : α}, fromJson r = .ok a → r = .ok a := by
    intro α r a hr
    cases r with
    | ok b => exact congrArg Except.ok (Except.ok.inj hr)
    | error e => cases hr
  unfold readOrder at h
  split at h
  · cases h
  case _ o' ho =>
    split at h
    · cases h
    · split at h
      · cases h
      case _ p' hp =>
        split at h
        · cases h
        · cases h
          exact ⟨hjson ho, hjson hp⟩

/-! ## After the checks -/

/-- What may change once an order passed the checks: everything outside the
fabric, the temporary directory of a revert, and these records. -/
def Beyond (st : Store) (q : Path) : Prop :=
  ¬ st.fabricDir <+: q ∨ Revert.tmpDir st <+: q ∨
    st.Within [str "objects", str "manifests", str "remotes", str "HEAD", str "fleet_seen",
      str "audit.jsonl"] q

/-- A record of the fabric is within it, unless a revert may touch it. -/
theorem not_beyond {n : Name} (htmp : n ≠ str "tmp") (hdot : n.head? ≠ some 46)
    (hn : n ∉ [str "objects", str "manifests", str "remotes", str "HEAD", str "fleet_seen",
      str "audit.jsonl"]) : ¬ Beyond st (st.fabricDir ++ [n]) := by
  intro h
  rcases h with hout | hdir | hin
  · exact hout (List.prefix_append _ _)
  · have heq := hdir.eq_of_length (by simp [Revert.tmpDir])
    exact htmp (List.cons.inj (List.append_cancel_left heq)).1.symm
  · exact Store.not_within hn hdot hin

/-- Landing on a target whose paths are outside the fabric leaves the pin alone.
-/
theorem land_touches {a : Accepted} (hreal : st.Real m.fs)
    (houtside : ∀ mf, Snapshot.load F.toCrates st m.fs a.target = .ok mf →
      Revert.Outside st mf.files) :
    After (land F st a force m) (fun _ m' => st.Touched (Beyond st) m.fs m'.fs)
      (fun _ m' => st.Touched (Beyond st) m.fs m'.fs) := by
  have hwithin : ∀ {names : List Name} {q : Path}, st.Within names q →
      (∀ n ∈ names, n ∈ [str "objects", str "manifests", str "remotes", str "HEAD",
        str "fleet_seen", str "audit.jsonl"]) → Beyond st q :=
    fun hq hn => Or.inr (Or.inr (hq.mono hn))
  unfold land
  apply after_look_bind
  · intro mf hload
    have hkeep : ∀ q, Revert.Touches st mf.files m.fs q → Beyond st q := by
      intro q hq
      by_cases hin : st.fabricDir <+: q
      · exact Or.inr (Or.inl (Revert.tmp_of_touches (houtside mf hload) hq hin))
      · exact Or.inl hin
    apply After.bind ((Revert.checkThenApply_touches hreal).mono (fun _ _ h => h.mono hkeep)
      fun _ _ h => h.mono hkeep)
    intro checked m₁ h₁
    apply After.bind (P := fun _ m₂ => m₂ = m₁)
    · obtain ⟨_, applied⟩ := checked
      cases applied with
      | none => exact h₁
      | some _ => exact rfl
    intro _ m₂ hm₂
    subst hm₂
    apply After.bind (h₁.andThen (Store.setHead_touching (some a.target)) fun _ hq =>
      hwithin hq (by decide))
    intro _ m₃ h₃
    have hnote : st.Touching (st.Within [str "fleet_seen"])
        (io (writeFile (seenPath st) (decimal (max a.payload.ts a.last).toNat ++ [10]))) := by
      intro s hs
      apply after_io
      exact Store.Touched.of_writeFile hs (List.prefix_append _ _)
        (Purge.record_names hs (by decide)) ⟨_, [], rfl, Or.inl (by simp)⟩
    apply After.bind (h₃.andThen hnote fun _ hq => hwithin hq (by decide))
    intro _ m₄ h₄
    apply After.bind (h₄.andThen (Audit.record_touching _ _) fun _ hq => hwithin hq (by decide))
    intro _ _ h₅
    exact h₅
  · intro _ _
    exact Store.Touched.refl hreal

/-- An order that is landed on is HEAD. -/
theorem head_of_land {a : Accepted} {h : Hash} (hreal : st.Real m.fs)
    (houtside : ∀ mf, Snapshot.load F.toCrates st m.fs a.target = .ok mf →
      Revert.Outside st mf.files)
    (hland : land F st a force m = .ok h m') : h = a.target ∧ st.head m'.fs = .ok (some h) := by
  obtain ⟨mf, m₁, hload, hrest⟩ := bind_eq_ok.mp hland
  obtain ⟨hloaded, rfl⟩ := look_eq_ok.mp hload
  obtain ⟨checked, m₂, hcheck, hrest⟩ := bind_eq_ok.mp hrest
  obtain ⟨_, m₃, hgrant, hrest⟩ := bind_eq_ok.mp hrest
  obtain ⟨_, m₄, hhead, hrest⟩ := bind_eq_ok.mp hrest
  obtain ⟨_, m₅, hnote, hrest⟩ := bind_eq_ok.mp hrest
  obtain ⟨_, m₆, hrecord, hdone⟩ := bind_eq_ok.mp hrest
  cases hdone
  have h₂ : st.Real m₂.fs := ((Revert.checkThenApply_touches hreal).ok hcheck).real
  have hm₃ : m₃ = m₂ := by
    obtain ⟨_, applied⟩ := checked
    cases applied with
    | none => cases hgrant
    | some _ =>
        cases hgrant
        rfl
  subst hm₃
  obtain ⟨d, hd, hbytes⟩ := Snapshot.head_of_setHead h₂ hhead
  have h₄ := (Store.setHead_touching _ _ h₂).ok hhead
  -- the note and the audit log are other files
  have hnoted : After (io (writeFile (seenPath st)
      (decimal (max a.payload.ts a.last).toNat ++ [10])) m₄)
      (fun _ s => st.Touched (st.Within [str "fleet_seen"]) m₄.fs s.fs)
      (fun _ s => st.Touched (st.Within [str "fleet_seen"]) m₄.fs s.fs) := by
    apply after_io
    exact Store.Touched.of_writeFile h₄.real (List.prefix_append _ _)
      (Purge.record_names h₄.real (by decide)) ⟨_, [], rfl, Or.inl (by simp)⟩
  have h₅ := hnoted.ok hnote
  have h₆ := (Audit.record_touching _ _ _ h₅.real).ok hrecord
  refine ⟨rfl, Snapshot.head_of_file ?_ hbytes⟩
  show m'.fs.get (st.fabricDir ++ [str "HEAD"]) = some (.file d)
  rw [h₆.frame _ (Store.not_within (by decide) (by decide)),
    h₅.frame _ (Store.not_within (by decide) (by decide))]
  exact hd

/-! ## One call -/

variable {pin : Bytes} {c : Call}

theorem Pins.keep {fs fs' : Fs} (h : Pins st pin fs)
    (hsame : fs'.get (fleetKeyPath st) = fs.get (fleetKeyPath st)) : Pins st pin fs' := by
  obtain ⟨d, hd, hrest⟩ := h
  exact ⟨d, hsame.trans hd, hrest⟩

/-- The checks touch the identity at most. -/
theorem unmoved_of_touched {fs fs' : Fs} (h : st.Touched (st.Within [str "fabric_id"]) fs fs') :
    Unmoved st fs fs' := by
  refine ⟨⟨h.frame _ (Store.not_within (by decide) (by decide)), ?_⟩,
    h.frame _ (seen_not_within (by decide))⟩
  intro q hq
  exact h.frame q fun hin => hq hin.fabric

/-- **A call that is refused by a check** changes nothing of these. -/
theorem call_refused (hreal : st.Real c.before.fs) {e : Error} {m' : Machine}
    (hrefused : accept F st c.orderPath c.before = .error e m') :
    c.result F st = .error e m' ∧ Unmoved st c.before.fs m'.fs := by
  refine ⟨?_, unmoved_of_touched ((accept_after hreal).error hrefused)⟩
  unfold Call.result apply
  rw [bind_apply, hrefused]

/-- From where the checks were passed the pin and the identity stay. -/
theorem call_accepted {a : Accepted} {m₁ : Machine} (hreal : st.Real c.before.fs)
    (hok : accept F st c.orderPath c.before = .ok a m₁)
    (houtside : ∀ mf, Lands F st c.before c.orderPath c.source mf → Revert.Outside st mf.files) :
    st.Touched (Beyond st) m₁.fs (c.after F st).fs ∧
      ∀ h m', c.result F st = .ok h m' → h = a.target ∧ st.head m'.fs = .ok (some h) := by
  have h₁ := ((accept_after hreal).ok hok).1
  have hresult : c.result F st = (fetchTarget F st a.target c.source >>= fun _ =>
      land F st a c.force) m₁ := by
    unfold Call.result apply
    rw [bind_apply, hok]
  have hfetched : ∀ q, st.Within [str "objects", str "manifests", str "remotes"] q →
      Beyond st q := fun q hq => Or.inr (Or.inr (hq.mono (by decide)))
  unfold Call.after
  rw [hresult, bind_apply]
  cases hfetch : fetchTarget F st a.target c.source m₁ with
  | error e m₂ =>
      have h₂ := (fetchTarget_touching (F := F) a.target c.source m₁ h₁.real).error hfetch
      refine ⟨h₂.mono hfetched, ?_⟩
      intro h m' hbad
      cases hbad
  | ok u m₂ =>
      have h₂ := (fetchTarget_touching (F := F) a.target c.source m₁ h₁.real).ok hfetch
      have hlands : ∀ mf, Snapshot.load F.toCrates st m₂.fs a.target = .ok mf →
          Revert.Outside st mf.files := fun mf hload =>
        houtside mf ⟨a, m₁, m₂, hok, hfetch, hload⟩
      refine ⟨(h₂.mono hfetched).trans (land_touches h₂.real hlands).final, ?_⟩
      intro h m' hland
      exact head_of_land h₂.real hlands hland

/-- **What passes the checks** is signed by the pinned key for this fabric. -/
theorem authentic_of_accept {a : Accepted} {m₁ : Machine} (hreal : st.Real c.before.fs)
    (hpins : Pins st pin c.before.fs) (hok : accept F st c.orderPath c.before = .ok a m₁)
    (houtside : ∀ mf, Lands F st c.before c.orderPath c.source mf → Revert.Outside st mf.files) :
    Authentic F st pin c a.payload := by
  obtain ⟨bytes, o, hread, horder, hsigner, hid, _⟩ := accept_ok hok
  obtain ⟨hjson, hpayload⟩ := readOrder_ok horder
  obtain ⟨hkey, pk, sig, hpk, hsig, hiskey, hverify⟩ := signed_of_checkSigner hpins hsigner
  obtain ⟨hnamed, hunique⟩ := named_of_fabricId hreal hid
  obtain ⟨hafter, _⟩ := call_accepted hreal hok houtside
  refine ⟨⟨bytes, o, pk, sig, hread, hjson, hkey, hpk, hsig, hiskey, hverify, hpayload⟩,
    hunique, ?_⟩
  obtain ⟨d, hd, hrest⟩ := hnamed
  exact ⟨d, (hafter.frame _ (not_beyond (by decide) (by decide) (by decide))).trans hd, hrest⟩

/-- The pinned key stays pinned. -/
theorem call_pins (hreal : st.Real c.before.fs) (hpins : Pins st pin c.before.fs)
    (houtside : ∀ mf, Lands F st c.before c.orderPath c.source mf → Revert.Outside st mf.files) :
    Pins st pin (c.after F st).fs := by
  cases hok : accept F st c.orderPath c.before with
  | error e m' =>
      have hafter : c.after F st = m' := by
        unfold Call.after
        rw [(call_refused hreal hok).1]
        rfl
      rw [hafter]
      exact hpins.keep (((accept_after hreal).error hok).frame _
        (Store.not_within (by decide) (by decide)))
  | ok a m₁ =>
      have h₁ := ((accept_after hreal).ok hok).1
      obtain ⟨h₂, _⟩ := call_accepted hreal hok houtside
      exact hpins.keep ((h₂.frame _ (not_beyond (by decide) (by decide) (by decide))).trans
        (h₁.frame _ (Store.not_within (by decide) (by decide))))

/-- What two files are read as is the same. -/
theorem Authentic.unique {p p' : OrderPayload} (h : Authentic F st pin c p)
    (h' : Authentic F st pin c p') : p = p' := by
  obtain ⟨bytes, o, _, _, hread, hjson, _, _, _, _, _, hpayload⟩ := h.signed
  obtain ⟨bytes', o', _, _, hread', hjson', _, _, _, _, _, hpayload'⟩ := h'.signed
  cases hread.symm.trans hread'
  cases hjson.symm.trans hjson'
  exact Except.ok.inj (hpayload.symm.trans hpayload')

/-! ## Runs of calls -/

variable {fs : Fs} {calls : List Call}

/-- The snapshots landed on spare the note. -/
theorem spares_of_outside {mf : Manifest} (h : Revert.Outside st mf.files) : Spares st mf :=
  fun fe hfe hat => h fe hfe _ hat (List.prefix_append _ _)

/-- A run of calls is a run of orders: those that were applied stay noted. -/
theorem Calls.runs (run : Calls F st pin fs calls) :
    ∃ done, Runs F st fs done ∧ ∀ c ∈ calls, ∀ h m', c.result F st = .ok h m' →
      ∀ bytes, c.before.fs.read c.orderPath = .ok bytes → bytes ∈ done := by
  induction run with
  | start hreal hpins => exact ⟨[], .start hreal, by simp⟩
  | edit run houtside ih =>
      obtain ⟨done, hruns, hdone⟩ := ih
      exact ⟨done, .edit hruns houtside, hdone⟩
  | call c run houtside ih =>
      obtain ⟨done, hruns, hdone⟩ := ih
      have hspares := fun mf hlands => spares_of_outside (houtside mf hlands)
      have hafter : c.after F st = finalState (c.result F st) := rfl
      cases hresult : c.result F st with
      | error e m' =>
          rw [hafter, hresult]
          refine ⟨done, .refused c.orderPath c.source c.force hruns hspares hresult, ?_⟩
          intro c' hc' h m'' hok
          rcases List.mem_cons.mp hc' with rfl | hin
          · rw [hresult] at hok
            cases hok
          · exact hdone c' hin h m'' hok
      | ok h m' =>
          rw [hafter, hresult]
          obtain ⟨a, m₁, haccept, _⟩ := bind_eq_ok.mp hresult
          obtain ⟨bytes, _, hread, _⟩ := accept_ok haccept
          refine ⟨bytes :: done,
            .applied c.orderPath c.source c.force hruns hspares hread hresult, ?_⟩
          intro c' hc' h' m'' hok bytes' hread'
          rcases List.mem_cons.mp hc' with rfl | hin
          · cases hread.symm.trans hread'
            exact List.mem_cons_self
          · exact List.mem_cons_of_mem _ (hdone c' hin h' m'' hok bytes' hread')

/-- Throughout the calls the pin stays. -/
theorem Calls.pins (run : Calls F st pin fs calls) : st.Real fs ∧ Pins st pin fs := by
  refine ⟨?_, ?_⟩
  · obtain ⟨_, hruns, _⟩ := run.runs
    exact hruns.remembers.1
  · induction run with
    | start hreal hpins => exact hpins
    | edit run houtside ih => exact ih.keep (houtside _ (List.prefix_append _ _))
    | call c run houtside ih =>
        obtain ⟨_, hruns, _⟩ := run.runs
        exact call_pins hruns.remembers.1 ih houtside

/-- What a call that succeeds was not older than. -/
theorem not_older {h : Hash} {m' : Machine} {p p' : OrderPayload} {c' : Call}
    (run : Calls F st pin c.before.fs calls) (hc' : c' ∈ calls) {h' : Hash} {m'' : Machine}
    (hok : c.result F st = .ok h m') (hok' : c'.result F st = .ok h' m'')
    (hp : Authentic F st pin c p) (hp' : Authentic F st pin c' p') : p'.ts ≤ p.ts := by
  obtain ⟨done, hruns, hdone⟩ := run.runs
  obtain ⟨hreal, hrem⟩ := hruns.remembers
  obtain ⟨bytes', o', _, _, hread', hjson', _, _, _, _, _, hpayload'⟩ := hp'.signed
  obtain ⟨⟨d, hd⟩, p₁, ⟨o₁, horder₁⟩, hle⟩ := hrem bytes' (hdone c' hc' h' m'' hok' bytes' hread')
  obtain ⟨hjson₁, hpayload₁⟩ := readOrder_ok horder₁
  cases hjson'.symm.trans hjson₁
  cases hpayload'.symm.trans hpayload₁
  obtain ⟨a, m₁, haccept, _⟩ := bind_eq_ok.mp hok
  obtain ⟨h₁, hlast, hfresh, bytes, o, hread, horder⟩ := (accept_after hreal).ok haccept
  obtain ⟨hjson, hpayload⟩ := readOrder_ok horder
  obtain ⟨bytes₂, o₂, _, _, hread₂, hjson₂, _, _, _, _, _, hpayload₂⟩ := hp.signed
  cases hread.symm.trans hread₂
  cases hjson.symm.trans hjson₂
  cases hpayload.symm.trans hpayload₂
  have hseen := lastSeen_congr hd (h₁.frame _ (seen_not_within (by decide)))
  rw [hlast, hseen] at hfresh
  exact UInt64.le_trans hle (UInt64.not_lt.mp hfresh)

/-- **Only authentic orders act, and never backwards in time.**  In every run:
what moves HEAD, the worktree or the note is a call with an authentic payload;
after a call that succeeds HEAD is its target; the time stamps of the calls
that succeed do not decrease; a call that a check refuses moves nothing. -/
theorem orders_act (run : Calls F st pin fs calls) :
    (∀ c ∈ calls, ¬ Unmoved st c.before.fs (c.after F st).fs → ∃ p, Authentic F st pin c p) ∧
    (∀ c ∈ calls, ∀ h m', c.result F st = .ok h m' →
      ∃ p, Authentic F st pin c p ∧ parseHash p.target = .ok h ∧ st.head m'.fs = .ok (some h)) ∧
    calls.Pairwise (fun later earlier => ∀ h m' h' m'' p p', later.result F st = .ok h m' →
      earlier.result F st = .ok h' m'' → Authentic F st pin later p →
      Authentic F st pin earlier p' → p'.ts ≤ p.ts) ∧
    (∀ c ∈ calls, ∀ e m', accept F st c.orderPath c.before = .error e m' →
      c.result F st = .error e m' ∧ Unmoved st c.before.fs m'.fs) := by
  induction run with
  | start hreal hpins => exact ⟨by simp, by simp, .nil, by simp⟩
  | edit run houtside ih => exact ih
  | @call calls c run houtside ih =>
      obtain ⟨hacts, hheads, htimes, hrefused⟩ := ih
      obtain ⟨hreal, hpins⟩ := run.pins
      refine ⟨?_, ?_, ?_, ?_⟩
      · intro c' hc' hmoved
        rcases List.mem_cons.mp hc' with rfl | hin
        · cases haccept : accept F st c'.orderPath c'.before with
          | error e m' =>
              obtain ⟨hresult, hstill⟩ := call_refused hreal haccept
              unfold Call.after at hmoved
              rw [hresult] at hmoved
              exact absurd hstill hmoved
          | ok a m₁ => exact ⟨a.payload, authentic_of_accept hreal hpins haccept houtside⟩
        · exact hacts c' hin hmoved
      · intro c' hc' h m' hok
        rcases List.mem_cons.mp hc' with rfl | hin
        · obtain ⟨a, m₁, haccept, _⟩ := bind_eq_ok.mp hok
          obtain ⟨_, _, _, _, _, _, htarget⟩ := accept_ok haccept
          obtain ⟨rfl, hhead⟩ := (call_accepted hreal haccept houtside).2 h m' hok
          exact ⟨a.payload, authentic_of_accept hreal hpins haccept houtside, htarget, hhead⟩
        · exact hheads c' hin h m' hok
      · refine .cons ?_ htimes
        intro c' hc' h m' h' m'' p p' hok hok' hp hp'
        exact not_older run hc' hok hok' hp hp'
      · intro c' hc' e m' haccept
        rcases List.mem_cons.mp hc' with rfl | hin
        · exact call_refused hreal haccept
        · exact hrefused c' hin e m' haccept

/-! ## Two orders and a replay -/

/-- The snapshot that HEAD is. -/
def calmManifest : Manifest :=
  smallManifest none none [smallEntry (str "a") (str "A"), smallEntry (str "d/b") (str "B")]

/-- One that other machines made after it. -/
def newsManifest : Manifest :=
  smallManifest (some (str "calm")) none
    [smallEntry (str "a") (str "C"), smallEntry (str "e/f/g") (str "B")]

/-- An order of this second to land there. -/
def landingAt (ts : UInt64) (target : Bytes) : OrderPayload :=
  { payloadAt ts with target := hashHex (padHash target) }

/-- The first order is to land on `news`, the second to go back to `calm`. -/
def landingCrates : FleetCrates :=
  { fleetCrates with
    manifestToJson := tableEncode [(str "calm", calmManifest), (str "news", newsManifest)]
    manifestOfJson := tableDecode [(str "calm", calmManifest), (str "news", newsManifest)]
    orderPayloadOfJson :=
      tableDecode [(str "1", landingAt 1 (str "news")), (str "2", landingAt 2 (str "calm"))] }

/-- A worktree as `calm` has it; the orders lie beside it. -/
def landingFabric : Fs :=
  Fs.build (Store.fabricNodes ⟨[str "w"]⟩ (hashHex (padHash (str "calm"))) ++
    Store.blobNodes ⟨[str "w"]⟩ (str "manifests") (padHash (str "calm")) (str "calm") ++
    Store.blobNodes ⟨[str "w"]⟩ (str "manifests") (padHash (str "news")) (str "news") ++
    Store.blobNodes ⟨[str "w"]⟩ (str "objects") (padHash (str "A")) (str "A") ++
    Store.blobNodes ⟨[str "w"]⟩ (str "objects") (padHash (str "B")) (str "B") ++
    Store.blobNodes ⟨[str "w"]⟩ (str "objects") (padHash (str "C")) (str "C") ++
    [(fleetKeyPath ⟨[str "w"]⟩, Store.plainFile (hexEncode fleetSeed)),
     (Anchor.fabricIdPath ⟨[str "w"]⟩, Store.plainFile (str "fabric")),
     ([str "w", str "a"], Store.plainFile (str "A")), ([str "w", str "d"], .dir),
     ([str "w", str "d", str "b"], Store.plainFile (str "B")),
     ([str "order1"], Store.plainFile (str "order 1")),
     ([str "order2"], Store.plainFile (str "order 2"))])

/-- Present an order file. -/
def presented (name : Name) (m : Machine) : Call := ⟨m, [name], none, false⟩

/-- The state after that. -/
def landed (name : Name) (m : Machine) : Machine :=
  (presented name m).after landingCrates ⟨[str "w"]⟩

/-- Does an order land only on snapshots that keep out of the fabric? -/
def landsOutside (name : Name) (m : Machine) : Bool :=
  match accept landingCrates ⟨[str "w"]⟩ [name] m with
  | .error _ _ => true
  | .ok a m₁ => match fetchTarget landingCrates ⟨[str "w"]⟩ a.target none m₁ with
    | .error _ _ => true
    | .ok _ m₂ =>
        match Snapshot.load landingCrates.toCrates ⟨[str "w"]⟩ m₂.fs a.target with
        | .error _ => true
        | .ok mf => mf.files.all fun fe => (Revert.destination [str "w"] fe).all fun q =>
            decide (¬ Store.fabricDir ⟨[str "w"]⟩ <+: q)

/-- A target that was checked has its paths outside the fabric. -/
theorem outside_of_landsOutside {name : Name} (h : landsOutside name m = true) (mf : Manifest)
    (hlands : Lands landingCrates ⟨[str "w"]⟩ m [name] none mf) :
    Revert.Outside ⟨[str "w"]⟩ mf.files := by
  obtain ⟨a, m₁, m₂, haccept, hfetch, hload⟩ := hlands
  unfold landsOutside at h
  rw [haccept] at h
  simp only [hfetch, hload] at h
  intro fe hfe q hdest
  have hout := List.all_eq_true.mp h fe hfe
  rw [show Revert.destination [str "w"] fe = some q from hdest] at hout
  exact of_decide_eq_true hout

theorem start_run {fs : Fs} (hreal : Store.Real ⟨[str "w"]⟩ fs)
    (hpins : Pins ⟨[str "w"]⟩ (hexEncode fleetSeed) fs) :
    Calls landingCrates ⟨[str "w"]⟩ (hexEncode fleetSeed) (Machine.start fs).fs [] :=
  .start hreal hpins

/-- One more order is presented. -/
theorem presented_run (name : Name) (m : Machine) {calls : List Call}
    (run : Calls landingCrates ⟨[str "w"]⟩ (hexEncode fleetSeed) m.fs calls)
    (h : landsOutside name m = true) :
    Calls landingCrates ⟨[str "w"]⟩ (hexEncode fleetSeed) (landed name m).fs
      (presented name m :: calls) :=
  .call (presented name m) run (outside_of_landsOutside h)

/-- The orders of two seconds are presented, and the first once more, the latest
call first. -/
def landingCalls (m : Machine) : List Call :=
  [presented (str "order1") (landed (str "order2") (landed (str "order1") m)),
    presented (str "order2") (landed (str "order1") m), presented (str "order1") m]

/-- Three orders are presented, one of them twice. -/
theorem landingCalls_run
    (run : Calls landingCrates ⟨[str "w"]⟩ (hexEncode fleetSeed) m.fs [])
    (h : (landingCalls m).all (fun c => landsOutside (c.orderPath.headD []) c.before) = true) :
    Calls landingCrates ⟨[str "w"]⟩ (hexEncode fleetSeed)
      (landed (str "order1") (landed (str "order2") (landed (str "order1") m))).fs
      (landingCalls m) := by
  obtain ⟨hthird, hsecond, hfirst, -⟩ : landsOutside (str "order1")
        (landed (str "order2") (landed (str "order1") m)) = true ∧
      landsOutside (str "order2") (landed (str "order1") m) = true ∧
      landsOutside (str "order1") m = true ∧ True := by
    simpa [landingCalls, presented] using h
  exact presented_run _ _ (presented_run _ _ (presented_run _ _ run hfirst) hsecond) hthird

theorem landingFabric_run :
    Calls landingCrates ⟨[str "w"]⟩ (hexEncode fleetSeed) (Machine.start landingFabric).fs [] :=
  start_run (Store.Real.of_keys (by decide +kernel) (by decide +kernel))
    ⟨⟨hexEncode fleetSeed, defaultMode, 0⟩, by decide +kernel, by decide +kernel, by decide +kernel⟩

/-- Two orders land, one after the other, and the replay of the first is refused
and moves nothing. -/
theorem orders_act_replayed :
    (landingCalls (Machine.start landingFabric)).map
        (fun c => succeeded (c.result landingCrates ⟨[str "w"]⟩)) = [false, true, true] ∧
      (∀ c ∈ landingCalls (Machine.start landingFabric), ∀ h m',
        c.result landingCrates ⟨[str "w"]⟩ = .ok h m' →
        ∃ p, Authentic landingCrates ⟨[str "w"]⟩ (hexEncode fleetSeed) c p ∧
          parseHash p.target = .ok h ∧ Store.head ⟨[str "w"]⟩ m'.fs = .ok (some h)) ∧
      (∀ c ∈ landingCalls (Machine.start landingFabric), ∀ e m',
        accept landingCrates ⟨[str "w"]⟩ c.orderPath c.before = .error e m' →
        c.result landingCrates ⟨[str "w"]⟩ = .error e m' ∧
          Unmoved ⟨[str "w"]⟩ c.before.fs m'.fs) ∧
      ((landed (str "order1") (Machine.start landingFabric)).fs.read
        [str "w", str "e", str "f", str "g"]).toOption = some (str "B") := by
  obtain ⟨-, hheads, -, hrefused⟩ :=
    orders_act (landingCalls_run landingFabric_run (by decide +kernel))
  exact ⟨by decide +kernel, hheads, hrefused, by decide +kernel⟩

end Fleet

end Respawn
