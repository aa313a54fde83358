import Respawn.Answers
import Respawn.Delivery
import Respawn.Listener
import Respawn.Rounds

/-!
# Pulling over a connection

The two ends of a connection put together: `pull` on one side, the listener on
the other, with the bytes of either transport between them.  The listener's
answers to what has been sent so far are a peer, and the claim is that this peer
is the one that answers every request from its store.

Two peers that agree on every history whose requests were all answered give the
same pull, since `pull` stops at the first request that is not.  The one answer
that is not sent as it is, a manifest over the limit of a frame on the plain
transport, stops the pull either way.

* `pull_alike` — the pull over a peer that echoes the steady one;
* `pullOver_matched` — the pull over a connection, plain or encrypted;
* `pullOver_mismatched` — ends that are set differently.
-/

namespace Respawn

open ByteStr FileTree StateLogic Duplex Conversation

namespace Sockets

open Sync Listener
open Secure (Noise SecureStream Documented)
open Framing (PlainStream plain secure)

variable (X : Crates) (st sp : Store) (world : Nat → Fs)

/-- A peer that answers every request from its store, as it is at that moment. -/
def steadyOver : Peer := fun sent =>
  match sent.getLast? with
  | some req => (respond X sp world (sent.length - 1) req).toOption
  | none => none

/-- A request that is one and fits a frame. -/
def Askable (req : Bytes) : Prop := req ≠ [] ∧ req.length ≤ Secure.MAX_FRAME

/-- Requests that are all answered, with what fits a frame. -/
def Answered (sent : List Bytes) : Prop :=
  ∀ i req, sent[i]? = some req → Askable req ∧
    ∃ out, respond X sp world i req = .ok out ∧ out.length ≤ Secure.MAX_FRAME

/-- A peer that, after requests that were all answered, answers like the steady
one; what is too long for a frame may come cut off, or not at all. -/
structure Echoes (p : Peer) : Prop where
  fits : ∀ {sent req out}, Answered X sp world sent → Askable req →
    respond X sp world sent.length req = .ok out → out.length ≤ Secure.MAX_FRAME →
    p (sent ++ [req]) = some out
  refused : ∀ {sent req e}, Answered X sp world sent → Askable req →
    respond X sp world sent.length req = .error e → p (sent ++ [req]) = none
  cut : ∀ {sent req out got}, Answered X sp world sent → Askable req →
    respond X sp world sent.length req = .ok out → ¬ out.length ≤ Secure.MAX_FRAME →
    p (sent ++ [req]) = some got → got.length ≤ Secure.MAX_FRAME ∧ got <+: out

variable {X st sp world}

/-- One more answered request. -/
theorem Answered.snoc {sent : List Bytes} {req out : Bytes} (h : Answered X sp world sent)
    (hask : Askable req) (hresp : respond X sp world sent.length req = .ok out)
    (hfits : out.length ≤ Secure.MAX_FRAME) : Answered X sp world (sent ++ [req]) := by
  intro i r hi
  by_cases hold : i < sent.length
  · rw [List.getElem?_append_left hold] at hi
    exact h i r hi
  · have hlast : i = sent.length := by
      have hlen := (List.getElem?_eq_some_iff.mp hi).1
      rw [List.length_append, List.length_singleton] at hlen
      omega
    subst hlast
    rw [List.getElem?_concat_length] at hi
    cases hi
    exact ⟨hask, out, hresp, hfits⟩

/-- The answer of the steady peer that arrives. -/
theorem exchange_steadyOver {sent : List Bytes} {req resp : Bytes} :
    exchange (steadyOver X sp world) sent req = .ok resp ↔
      respond X sp world sent.length req = .ok resp ∧ resp.length ≤ Secure.MAX_FRAME := by
  have hlen : (sent ++ [req]).length - 1 = sent.length := by simp
  unfold exchange steadyOver
  rw [List.getLast?_concat, hlen]
  cases hresp : respond X sp world sent.length req with
  | error e => simp [hresp, Except.toOption]
  | ok answer =>
      simp only [hresp, Except.toOption]
      by_cases hlong : answer.length > Sync.MAX_FRAME
      · rw [if_pos hlong]
        constructor
        · intro h
          cases h
        · rintro ⟨heq, hfits⟩
          cases heq
          exact absurd hlong (Nat.not_lt.mpr hfits)
      · rw [if_neg hlong]
        constructor
        · intro h
          cases h
          exact ⟨rfl, Nat.not_lt.mp hlong⟩
        · rintro ⟨heq, -⟩
          exact heq

section Echo

variable {p : Peer} (hp : Echoes X sp world p)

include hp

/-- Where the response fits, both exchanges are the same. -/
theorem exchange_fits {sent : List Bytes} {req out : Bytes} (hsent : Answered X sp world sent)
    (hask : Askable req) (hresp : respond X sp world sent.length req = .ok out)
    (hfits : out.length ≤ Secure.MAX_FRAME) :
    exchange p sent req = exchange (steadyOver X sp world) sent req := by
  rw [exchange_steadyOver.mpr ⟨hresp, hfits⟩]
  unfold exchange
  rw [hp.fits hsent hask hresp hfits]
  exact if_neg (Nat.not_lt.mpr hfits)

/-- Where there is none, both fail. -/
theorem exchange_refused {sent : List Bytes} {req : Bytes} {e : Error}
    (hsent : Answered X sp world sent) (hask : Askable req)
    (hresp : respond X sp world sent.length req = .error e) :
    (∃ e', exchange p sent req = .error e') ∧
      ∃ e', exchange (steadyOver X sp world) sent req = .error e' := by
  constructor
  · unfold exchange
    rw [hp.refused hsent hask hresp]
    exact ⟨_, rfl⟩
  · cases hrun : exchange (steadyOver X sp world) sent req with
    | error e' => exact ⟨e', rfl⟩
    | ok resp =>
        rw [(exchange_steadyOver.mp hrun).1] at hresp
        cases hresp

/-- A question whose response cannot be too long. -/
theorem ask_alike {sent : List Bytes} {req : Bytes} (hsent : Answered X sp world sent)
    (hask : Askable req)
    (hshort : ∀ out, respond X sp world sent.length req = .ok out →
      out.length ≤ Secure.MAX_FRAME) (m : Machine) :
    Alike (look (fun _ => exchange p sent req) m)
      (look (fun _ => exchange (steadyOver X sp world) sent req) m) := by
  cases hresp : respond X sp world sent.length req with
  | ok out =>
      rw [exchange_fits hp hsent hask hresp (hshort out hresp)]
      exact Alike.refl _
  | error e =>
      obtain ⟨⟨e₁, h₁⟩, e₂, h₂⟩ := exchange_refused hp hsent hask hresp
      rw [h₁, h₂]
      exact Alike.errors e₁ e₂ m

end Echo

/-! ## How long a response can be -/

/-- A body has at most the hashes that were asked for. -/
theorem cutHashes_length_le (n : Nat) (body : Bytes) : (cutHashes n body).length ≤ n := by
  induction n generalizing body with
  | zero => exact le_rfl
  | succ n ih =>
      unfold cutHashes
      by_cases h : (body.take 32).length = 32
      · rw [dif_pos h, List.length_cons]
        exact Nat.succ_le_succ (ih _)
      · rw [dif_neg h]
        exact Nat.zero_le _

/-- Only a manifest can be too long for a frame. -/
theorem response_le {fs : Fs} {req out : Bytes} (hreq : req.length ≤ Secure.MAX_FRAME)
    (hop : req.head? ≠ some OP_GET_MANIFEST) (hresp : respondFrame X sp fs req = .ok out) :
    out.length ≤ Secure.MAX_FRAME := by
  have hsmall : 33 ≤ Secure.MAX_FRAME := by decide
  cases req with
  | nil => cases hresp
  | cons op body =>
      by_cases hobject : op = OP_GET_OBJECT ∧ body.length = 32
      · obtain ⟨rfl, hlen⟩ := hobject
        rw [objectAnswer_eq fs body hlen] at hresp
        cases hresp
        have hcap : 8 + MAX_OBJECT_SIZE ≤ Secure.MAX_FRAME := by decide
        cases hget : sp.getObject X fs ⟨body, hlen⟩ with
        | error e => exact (by decide : (payloadFrame []).length ≤ Secure.MAX_FRAME)
        | ok data =>
            have := (Store.blake3_of_getObject X sp hget).2
            simp only [Except.toOption, Option.getD_some, payloadFrame, List.length_append,
              leBytes_length]
            omega
      · unfold respondFrame at hresp
        by_cases hhead : op = OP_GET_HEAD
        · simp only [if_pos hhead] at hresp
          cases hrun : sp.head fs with
          | error e =>
              rw [hrun] at hresp
              cases hresp
          | ok found =>
              rw [hrun] at hresp
              cases found with
              | none =>
                  cases hresp
                  exact (by decide : 1 ≤ Secure.MAX_FRAME)
              | some h =>
                  cases hresp
                  rw [List.length_cons, h.2]
                  exact hsmall
        · have hmanifest : ¬ (op = OP_GET_MANIFEST ∧ body.length = 32) := by
            rintro ⟨rfl, -⟩
            exact hop rfl
          simp only [if_neg hhead, dif_neg hmanifest, dif_neg hobject] at hresp
          by_cases hhave : op = OP_HAVE ∧ body.length ≥ 4
          · simp only [if_pos hhave] at hresp
            by_cases hbad : body.length ≠ 4 + leNat (body.take 4) * 32
            · rw [if_pos hbad] at hresp
              cases hresp
            · rw [if_neg hbad] at hresp
              cases hresp
              have hcut := cutHashes_length_le (leNat (body.take 4)) (body.drop 4)
              rw [List.length_cons] at hreq
              rw [List.length_map]
              omega
          · rw [if_neg hhave] at hresp
            cases hresp

/-- An answer that is cut off carries nothing. -/
theorem framePayload_cut {data got : Bytes} (hcut : got <+: payloadFrame data)
    (hless : got.length < (payloadFrame data).length) (hsize : data.length < 2 ^ 64) :
    ∃ e, framePayload got = .error e := by
  unfold framePayload readU64
  by_cases hshort : got.length < 8
  · rw [if_pos hshort]
    exact ⟨_, rfl⟩
  · have htake : got.take 8 = leBytes 8 data.length := by
      obtain ⟨rest, hrest⟩ := hcut
      have hall : (got ++ rest).take 8 = leBytes 8 data.length := by
        rw [hrest]
        exact List.take_left' (leBytes_length 8 _)
      rwa [List.take_append_of_le_length (Nat.not_lt.mp hshort)] at hall
    have hnum : leNat (leBytes 8 data.length) = data.length := leNat_leBytes (by simpa using hsize)
    have hlen : (payloadFrame data).length = 8 + data.length := by simp [payloadFrame]
    have hpos : ¬ data.length = 0 := by omega
    have hover : data.length > got.length - 8 := by omega
    rw [if_neg hshort]
    simp only [htake, hnum, if_neg hpos, if_pos hover]
    exact ⟨_, rfl⟩

/-- A response that is too long is a manifest. -/
theorem manifest_of_long {fs : Fs} {h : Hash} {out : Bytes}
    (hresp : respondFrame X sp fs (manifestRequest h) = .ok out)
    (hlong : ¬ out.length ≤ Secure.MAX_FRAME) :
    ∃ data, sp.getManifestBytes fs h = .ok data ∧ out = payloadFrame data := by
  unfold respondFrame manifestRequest at hresp
  have hop : ¬ OP_GET_MANIFEST = OP_GET_HEAD := by decide
  simp only [if_neg hop, h.2, and_self, dite_true] at hresp
  by_cases hhas : sp.hasManifest fs h = true
  · rw [if_pos hhas] at hresp
    cases hrun : sp.getManifestBytes fs h with
    | error e =>
        rw [hrun] at hresp
        cases hresp
    | ok data =>
        rw [hrun] at hresp
        cases hresp
        exact ⟨data, rfl, rfl⟩
  · rw [if_neg hhas] at hresp
    cases hresp
    exact absurd (by decide) hlong

theorem askable_manifest (h : Hash) : Askable (manifestRequest h) := by
  refine ⟨List.cons_ne_nil _ _, ?_⟩
  rw [manifestRequest, List.length_cons, h.2]
  decide

theorem askable_object (h : Hash) : Askable (OP_GET_OBJECT :: h.val) := by
  refine ⟨List.cons_ne_nil _ _, ?_⟩
  rw [List.length_cons, h.2]
  decide

/-- A batch may be asked for. -/
theorem askable_have {batch : List Hash} (h : batch.length ≤ HAVE_BATCH) :
    Askable (haveRequest batch) := by
  refine ⟨List.cons_ne_nil _ _, ?_⟩
  have hhashes : (batch.flatMap Subtype.val).length = batch.length * 32 := by
    clear h
    induction batch with
    | nil => rfl
    | cons c rest ih =>
        rw [List.flatMap_cons, List.length_append, ih, c.2, List.length_cons]
        omega
  have hcap : 5 + HAVE_BATCH * 32 ≤ Secure.MAX_FRAME := by decide
  simp only [haveRequest, List.cons_append, List.length_cons, List.length_append, leBytes_length,
    hhashes]
  omega

/-! ## The pull -/

/-- A manifest that is served fits the machine word. -/
theorem manifest_fits {fs : Fs} (hfits : FitsUsize fs) {h : Hash} {data : Bytes}
    (hdata : sp.getManifestBytes fs h = .ok data) : data.length < 2 ^ 64 := by
  unfold Store.getManifestBytes Store.readBlob at hdata
  cases hread : fs.read (sp.manifestPath h) with
  | ok bytes =>
      rw [hread] at hdata
      cases hdata
      exact hfits.of_read hread
  | error e =>
      rw [hread] at hdata
      cases e <;> cases hdata

/-- After an answer that arrives all requests are answered. -/
theorem answered_of_exchange {sent : List Bytes} {req resp : Bytes}
    (hsent : Answered X sp world sent) (hask : Askable req)
    (h : exchange (steadyOver X sp world) sent req = .ok resp) :
    Answered X sp world (sent ++ [req]) :=
  hsent.snoc hask (exchange_steadyOver.mp h).1 (exchange_steadyOver.mp h).2

/-- A manifest that does not arrive, or arrives cut off. -/
theorem fetchManifest_fails {p : Peer} {sent : List Bytes} {cur : Hash} {e : Error} {m : Machine}
    (h : exchange p sent (manifestRequest cur) = .error e ∨
      ∃ got, exchange p sent (manifestRequest cur) = .ok got ∧ framePayload got = .error e) :
    fetchManifest X st p sent cur m = .error e m := by
  unfold fetchManifest
  rcases h with hlost | ⟨got, hgot, hcut⟩
  · exact bind_eq_error.mpr (.inl (look_eq_error.mpr ⟨hlost, rfl⟩))
  · refine bind_eq_error.mpr (.inr ⟨got, m, look_eq_ok.mpr ⟨hgot, rfl⟩, ?_⟩)
    exact bind_eq_error.mpr (.inl (look_eq_error.mpr ⟨hcut, rfl⟩))

/-- A fetched manifest was answered. -/
theorem fetchManifest_answered {sent : List Bytes} {cur : Hash} {mf : Manifest} {m m' : Machine}
    (hsent : Answered X sp world sent)
    (h : fetchManifest X st (steadyOver X sp world) sent cur m = .ok mf m') :
    Answered X sp world (sent ++ [manifestRequest cur]) := by
  obtain ⟨resp, m₁, hresp, -⟩ := bind_eq_ok.mp h
  exact answered_of_exchange hsent (askable_manifest cur) (look_eq_ok.mp hresp).1

/-- A fetched object was answered. -/
theorem fetchObject_answered {f f' : Fetched} {h : Hash} {offered : UInt8} {m m' : Machine}
    (hsent : Answered X sp world f.sent)
    (hrun : fetchObject X st (steadyOver X sp world) f h offered m = .ok f' m') :
    Answered X sp world f'.sent := by
  unfold fetchObject at hrun
  rw [bind_apply, look_get] at hrun
  by_cases hneed : offered = 1 ∧ ¬ st.hasObject m.fs h = true
  · simp only [if_pos hneed] at hrun
    obtain ⟨resp, m₁, hresp, hmore⟩ := bind_eq_ok.mp hrun
    obtain ⟨data, m₂, -, hstore⟩ := bind_eq_ok.mp hmore
    by_cases hnil : data = []
    · rw [if_pos hnil] at hstore
      cases hstore
    · rw [if_neg hnil] at hstore
      obtain ⟨_, m₃, -, hlast⟩ := bind_eq_ok.mp hstore
      cases hlast
      exact answered_of_exchange hsent (askable_object h) (look_eq_ok.mp hresp).1
  · simp only [if_neg hneed] at hrun
    cases hrun
    exact hsent

/-- So were all of a batch. -/
theorem fetchObjects_answered {l : List (Hash × UInt8)} {f f' : Fetched} {m m' : Machine}
    (hsent : Answered X sp world f.sent)
    (hrun : fetchObjects X st (steadyOver X sp world) l f m = .ok f' m') :
    Answered X sp world f'.sent := by
  induction l generalizing f m with
  | nil =>
      cases hrun
      exact hsent
  | cons entry rest ih =>
      obtain ⟨f₁, m₁, hfirst, hrest⟩ := bind_eq_ok.mp hrun
      exact ih (fetchObject_answered hsent hfirst) hrest

section Pull

variable {p : Peer} (hp : Echoes X sp world p)

include hp

/-- Fetching a manifest over the sockets is fetching it from the steady peer. -/
theorem fetchManifest_alike (hsized : ∀ n, FitsUsize (world n)) {sent : List Bytes}
    (hsent : Answered X sp world sent) (cur : Hash) (m : Machine) :
    Alike (fetchManifest X st p sent cur m)
      (fetchManifest X st (steadyOver X sp world) sent cur m) := by
  have hask := askable_manifest cur
  cases hresp : respond X sp world sent.length (manifestRequest cur) with
  | error e =>
      obtain ⟨⟨e₁, h₁⟩, e₂, h₂⟩ := exchange_refused hp hsent hask hresp
      rw [fetchManifest_fails (.inl h₁), fetchManifest_fails (.inl h₂)]
      exact Alike.errors e₁ e₂ m
  | ok out =>
      by_cases hfits : out.length ≤ Secure.MAX_FRAME
      · unfold fetchManifest
        rw [exchange_fits hp hsent hask hresp hfits]
        exact Alike.refl _
      · -- the steady peer's answer does not arrive, what this one sends carries nothing
        obtain ⟨data, hdata, rfl⟩ := manifest_of_long hresp hfits
        have hsteady : ∃ e, exchange (steadyOver X sp world) sent (manifestRequest cur) =
            .error e := by
          cases hrun : exchange (steadyOver X sp world) sent (manifestRequest cur) with
          | error e => exact ⟨e, rfl⟩
          | ok resp =>
              obtain ⟨hsame, hshort⟩ := exchange_steadyOver.mp hrun
              rw [hresp] at hsame
              cases hsame
              exact absurd hshort hfits
        obtain ⟨e₂, h₂⟩ := hsteady
        rw [fetchManifest_fails (.inl h₂)]
        cases hgot : p (sent ++ [manifestRequest cur]) with
        | none =>
            have hlost : exchange p sent (manifestRequest cur) = .error (.io .other) := by
              unfold exchange
              rw [hgot]
            rw [fetchManifest_fails (.inl hlost)]
            exact Alike.errors _ e₂ m
        | some got =>
            obtain ⟨hshort, hcut⟩ := hp.cut hsent hask hresp hfits hgot
            obtain ⟨e₁, he₁⟩ := framePayload_cut hcut (by omega) (manifest_fits (hsized _) hdata)
            have harrives : exchange p sent (manifestRequest cur) = .ok got := by
              unfold exchange
              rw [hgot]
              exact if_neg (Nat.not_lt.mpr hshort)
            rw [fetchManifest_fails (.inr ⟨got, harrives, he₁⟩)]
            exact Alike.errors e₁ e₂ m

/-- The walk, and that its requests were all answered. -/
theorem walk_alike (hsized : ∀ n, FitsUsize (world n)) (fuel : Nat)
    {visited : List Hash} {w : Walked}
    {cur : Hash} {m : Machine} (hsent : Answered X sp world w.sent) :
    Alike (walk X st p fuel visited w cur m)
        (walk X st (steadyOver X sp world) fuel visited w cur m) ∧
      ∀ w' m', walk X st (steadyOver X sp world) fuel visited w cur m = .ok w' m' →
        Answered X sp world w'.sent := by
  have hstops : ∀ {fuel visited} {w : Walked} {cur m}, Answered X sp world w.sent →
      (fuel = 0 ∨ st.hasManifest m.fs cur = true ∨ cur ∈ visited) →
      Alike (walk X st p fuel visited w cur m)
          (walk X st (steadyOver X sp world) fuel visited w cur m) ∧
        ∀ w' m', walk X st (steadyOver X sp world) fuel visited w cur m = .ok w' m' →
          Answered X sp world w'.sent := by
    intro fuel visited w cur m hsent hstop
    obtain ⟨hsame, hkept⟩ := walk_stops X (steadyOver X sp world) w hstop
    rw [hsame p (steadyOver X sp world)]
    exact ⟨Alike.refl _, fun w' m' hrun => hkept w' m' hrun ▸ hsent⟩
  induction fuel generalizing visited w cur m with
  | zero => exact hstops hsent (.inl rfl)
  | succ fuel ih =>
      by_cases hpresent : st.hasManifest m.fs cur = true
      · exact hstops hsent (.inr (.inl hpresent))
      · by_cases hvisited : cur ∈ visited
        · exact hstops hsent (.inr (.inr hvisited))
        · have hnext := walk_next X fuel w (Bool.eq_false_iff.mpr hpresent) hvisited
          -- past the manifest `cur`, which both peers give or neither does
          have hon : ∀ mf t, Answered X sp world (w.sent ++ [manifestRequest cur]) →
              Alike (walkOn X st p fuel visited w cur mf t)
                  (walkOn X st (steadyOver X sp world) fuel visited w cur mf t) ∧
                ∀ w' m', walkOn X st (steadyOver X sp world) fuel visited w cur mf t = .ok w' m' →
                  Answered X sp world w'.sent := by
            intro mf t hmore
            unfold walkOn
            by_cases hcap : (w.needed ++ mf.files.flatMap FileEntry.chunks).length >
                MAX_OBJECTS_PER_PULL
            · simp only [if_pos hcap]
              exact ⟨Alike.refl _, fun w' m' hrun => by cases hrun⟩
            · simp only [if_neg hcap]
              cases mf.parent with
              | none =>
                  refine ⟨Alike.refl _, fun w' m' hrun => ?_⟩
                  cases hrun
                  exact hmore
              | some parent => exact ih hmore
          rw [hnext, hnext]
          constructor
          · apply Alike.bind (fetchManifest_alike hp hsized hsent cur m)
            intro mf t hrun
            exact (hon mf t (fetchManifest_answered hsent hrun)).1
          · intro w' m' hrun
            obtain ⟨mf, t, hfirst, hrest⟩ := bind_eq_ok.mp hrun
            exact (hon mf t (fetchManifest_answered hsent hfirst)).2 w' m' hrest

/-- So is fetching an object. -/
theorem fetchObject_alike {f : Fetched} (hsent : Answered X sp world f.sent) (h : Hash)
    (offered : UInt8) (m : Machine) :
    Alike (fetchObject X st p f h offered m)
      (fetchObject X st (steadyOver X sp world) f h offered m) := by
  unfold fetchObject
  rw [bind_apply, bind_apply, look_get]
  by_cases hneed : offered = 1 ∧ ¬ st.hasObject m.fs h = true
  · simp only [if_pos hneed]
    refine Alike.bind (ask_alike hp hsent (askable_object h) ?_ m) fun _ _ _ => Alike.refl _
    intro out hout
    exact response_le (askable_object h).2 (by rw [List.head?_cons]; decide) hout
  · simp only [if_neg hneed]
    exact Alike.refl _

/-- So is fetching the objects of a batch. -/
theorem fetchObjects_alike {l : List (Hash × UInt8)} {f : Fetched} {m : Machine}
    (hsent : Answered X sp world f.sent) :
    Alike (fetchObjects X st p l f m) (fetchObjects X st (steadyOver X sp world) l f m) := by
  induction l generalizing f m with
  | nil => exact Alike.refl _
  | cons entry rest ih =>
      apply Alike.bind (fetchObject_alike hp hsent entry.1 entry.2 m)
      intro f' m' hrun
      exact ih (fetchObject_answered hsent hrun)

/-- So is fetching all batches. -/
theorem fetchBatches_alike {l : List (List Hash)} (hsmall : ∀ b ∈ l, b.length ≤ HAVE_BATCH)
    {f : Fetched} {m : Machine} (hsent : Answered X sp world f.sent) :
    Alike (fetchBatches X st p l f m) (fetchBatches X st (steadyOver X sp world) l f m) := by
  induction l generalizing f m with
  | nil => exact Alike.refl _
  | cons batch rest ih =>
      have hask := askable_have (hsmall batch List.mem_cons_self)
      have hhave : (haveRequest batch).head? ≠ some OP_GET_MANIFEST := by
        rw [haveRequest, List.cons_append, List.head?_cons]
        decide
      unfold fetchBatches
      apply Alike.bind (ask_alike hp hsent hask (fun out hout => response_le hask.2 hhave hout) m)
      intro offered t hasked
      have hmore := answered_of_exchange hsent hask (look_eq_ok.mp hasked).1
      by_cases hbad : offered.length ≠ batch.length
      · simp only [if_pos hbad]
        exact Alike.refl _
      · simp only [if_neg hbad]
        apply Alike.bind (fetchObjects_alike hp hmore)
        intro f' t' hrun
        exact ih (fun b hb => hsmall b (List.mem_cons_of_mem _ hb))
          (fetchObjects_answered hmore hrun)

/-- **A pull over an echo of the steady peer** is the pull over that peer: it
succeeds for the same reports, and ends in the same state either way. -/
theorem pull_alike (hsized : ∀ n, FitsUsize (world n)) (addr : Bytes) (m : Machine) :
    Alike (pull X st addr p m) (pull X st addr (steadyOver X sp world) m) := by
  have hnone : Answered X sp world [] := fun i req h => by cases h
  have hask : Askable [OP_GET_HEAD] := ⟨by decide, by decide⟩
  unfold pull
  by_cases haddr : 58 ∉ addr
  · rw [if_pos haddr, if_pos haddr]
    exact Alike.refl _
  · rw [if_neg haddr, if_neg haddr]
    apply Alike.bind
      (ask_alike hp hnone hask (fun out hout => response_le hask.2 (by decide) hout) m)
    intro resp t hasked
    have hsent := answered_of_exchange hnone hask (look_eq_ok.mp hasked).1
    by_cases hhead : resp.length = 33 ∧ resp.head? = some 1
    · simp only [dif_pos hhead]
      unfold pullHead
      apply Alike.bind (walk_alike hp hsized MAX_MANIFESTS_PER_PULL hsent).1
      intro w t' hwalked
      apply Alike.bind
      · apply fetchBatches_alike hp
        · exact fun b hb => length_of_mem_batches hb
        · exact (walk_alike hp hsized MAX_MANIFESTS_PER_PULL hsent).2 w t' hwalked
      · exact fun _ _ _ => Alike.refl _
    · simp only [dif_neg hhead]
      exact Alike.refl _

end Pull

/-! ## The plain transport -/

section Plain

variable (W : Snow) (X sp world)

/-- What the listener has sent when it waits for more than these bytes. -/
def listenerSays (psk : Option Bytes) (seed arriving : Bytes) : Bytes :=
  (finalState (serveConn W X sp world psk seed (.fresh arriving))).outgoing

/-- What the last of so many reads returns. -/
def lastRead {σ : Type} (T : Framing.Transport σ) (k : Nat) (s : σ) : Option Bytes :=
  (T.reads k s).getLast?.bind Except.toOption

/-- The listener at the other end of a plain connection. -/
def plainPeer (psk : Option Bytes) (seed : Bytes) : Peer := fun sent =>
  lastRead plain sent.length
    (.fresh (listenerSays X sp world W psk seed (sent.flatMap PlainStream.wire)))

variable {W X sp world}

/-- What is sent in frames is heard. -/
theorem plain_hears_frames {l : List Bytes} (hfits : ∀ q ∈ l, q.length ≤ Secure.MAX_FRAME)
    {s : PlainStream} (hs : s.incoming = l.flatMap PlainStream.wire) : plainEnd.Hears s l := by
  induction l generalizing s with
  | nil =>
      have hempty : s.incoming = [] := hs
      refine .done (e := .io .other) (t := { s with incoming := [] }) ?_
      have hexact : PlainStream.readExact 4 s = .error (.io .other) { s with incoming := [] } := by
        unfold PlainStream.readExact
        rw [hempty]
        rfl
      simp only [plainEnd, PlainStream.readFrame, bind_apply, hexact]
  | cons q rest ih =>
      rw [List.flatMap_cons] at hs
      refine .more (PlainStream.readFrame_run (hfits q List.mem_cons_self) hs) ?_
      exact ih (fun r hr => hfits r (List.mem_cons_of_mem _ hr)) rfl

/-- Frames that fit are read one by one. -/
theorem plain_reads_then {l : List Bytes} (hfits : ∀ q ∈ l, q.length ≤ Secure.MAX_FRAME)
    {s : PlainStream} {tail : Bytes} (hs : s.incoming = l.flatMap PlainStream.wire ++ tail)
    (k : Nat) :
    plain.reads (l.length + k) s = l.map .ok ++ plain.reads k { s with incoming := tail } := by
  induction l generalizing s with
  | nil =>
      have hin : s.incoming = tail := hs
      rw [List.length_nil, Nat.zero_add, ← hin]
      rfl
  | cons q rest ih =>
      rw [List.flatMap_cons, List.append_assoc] at hs
      have hfirst : plain.readFrame s = _ :=
        PlainStream.readFrame_run (hfits q List.mem_cons_self) hs
      have hnum : (q :: rest).length + k = rest.length + k + 1 := by
        rw [List.length_cons]
        omega
      rw [hnum, Framing.Transport.reads]
      simp only [hfirst, List.map_cons, List.cons_append, List.cons.injEq, true_and]
      exact ih (fun r hr => hfits r (List.mem_cons_of_mem _ hr)) rfl

/-- After frames that fit, the last read is that of what follows them. -/
theorem lastRead_then {l : List Bytes} (hfits : ∀ q ∈ l, q.length ≤ Secure.MAX_FRAME)
    {s : PlainStream} {tail : Bytes} (hs : s.incoming = l.flatMap PlainStream.wire ++ tail) :
    lastRead plain (l.length + 1) s = returned (plain.readFrame { s with incoming := tail }) := by
  have hone : ∀ t, plain.reads 1 t = [(plain.reads 1 t).headI] := by
    intro t
    unfold Framing.Transport.reads
    cases plain.readFrame t <;> rfl
  unfold lastRead
  rw [plain_reads_then hfits hs 1, hone, List.getLast?_concat]
  unfold Framing.Transport.reads
  cases plain.readFrame { s with incoming := tail } <;> rfl

/-- The answers to requests that were all answered are so many, and fit. -/
theorem answers_to (takes : Bytes → Bool)
    (htakes : ∀ out : Bytes, out.length ≤ Secure.MAX_FRAME → takes out = true) {sent : List Bytes}
    (hsent : Answered X sp world sent) (more : List Bytes) :
    ∃ outs : List Bytes, outs.length = sent.length ∧
      (∀ out ∈ outs, out.length ≤ Secure.MAX_FRAME) ∧
      answers (respond X sp world) List.isEmpty takes 0 (sent ++ more) =
        outs ++ answers (respond X sp world) List.isEmpty takes sent.length more := by
  have hall : ∀ i req, sent[i]? = some req → req.isEmpty = false ∧
      ∃ out, respond X sp world (0 + i) req = .ok out ∧ takes out = true := by
    intro i req hi
    obtain ⟨⟨hne, -⟩, out, hresp, hfits⟩ := hsent i req hi
    refine ⟨?_, out, by rwa [Nat.zero_add], htakes out hfits⟩
    cases req with
    | nil => exact absurd rfl hne
    | cons b rest => rfl
  obtain ⟨hlen, happ⟩ := answers_answered hall more
  rw [Nat.zero_add] at happ
  refine ⟨_, hlen, ?_, happ⟩
  intro out hout
  obtain ⟨-, i, req, hi, hresp⟩ := mem_answers hout
  obtain ⟨-, out', hresp', hfits⟩ := hsent i req hi
  rw [Nat.zero_add, hresp'] at hresp
  cases hresp
  exact hfits

/-- Every request of the conversation fits a frame. -/
theorem fits_of_answered {sent : List Bytes} {req : Bytes} (hsent : Answered X sp world sent)
    (hask : Askable req) : ∀ q ∈ sent ++ [req], q.length ≤ Secure.MAX_FRAME := by
  intro q hq
  rcases List.mem_append.mp hq with hin | hlast
  · obtain ⟨i, hi⟩ := List.mem_iff_getElem?.mp hin
    exact (hsent i q hi).1.2
  · rw [List.mem_singleton.mp hlast]
    exact hask.2

/-- What a client reads last: its request's answer, as it comes. -/
theorem plainPeer_eq {sent : List Bytes} {req : Bytes} (hsent : Answered X sp world sent)
    (hask : Askable req) :
    plainPeer X sp world W none [] (sent ++ [req]) = returned (PlainStream.readFrame (.fresh
      ((answers (respond X sp world) List.isEmpty (fun _ => true) sent.length [req]).flatMap
        PlainStream.wire))) := by
  have hfits := fits_of_answered hsent hask
  obtain ⟨ins, hears, hout⟩ := @unsecured_replies W X sp world []
    ((sent ++ [req]).flatMap PlainStream.wire)
  obtain rfl := hears.unique (plain_hears_frames hfits rfl)
  obtain ⟨outs, hlen, houts, happ⟩ := answers_to (fun _ => true) (fun _ _ => rfl) hsent [req]
  have hsaid := hout.trans ((congrArg (List.flatMap PlainStream.wire) happ).trans
    List.flatMap_append)
  have hcount : (sent ++ [req]).length = outs.length + 1 := by simp [hlen]
  unfold plainPeer listenerSays
  rw [hsaid, hcount, lastRead_then houts rfl]
  rfl

theorem request_not_last {req : Bytes} (hask : Askable req) : req.isEmpty = false := by
  cases req with
  | nil => exact absurd rfl hask.1
  | cons b rest => rfl

/-- The listener at the other end of a plain connection echoes the steady
peer. -/
theorem plain_echoes : Echoes X sp world (plainPeer X sp world W none []) where
  fits {sent req out} hsent hask hresp hfits := by
    rw [plainPeer_eq hsent hask, answers_cons (request_not_last hask) hresp rfl]
    have hin : (PlainStream.fresh ([out].flatMap PlainStream.wire)).incoming =
        PlainStream.wire out ++ [] := rfl
    have hread := PlainStream.readFrame_run hfits hin
    exact congrArg returned hread
  refused {sent req e} hsent hask hresp := by
    have hnone : answers (respond X sp world) List.isEmpty (fun _ => true) sent.length
      [req] = [] := by
      simp only [answers, request_not_last hask, hresp, Bool.false_eq_true, if_false]
    rw [plainPeer_eq hsent hask, hnone]
    rfl
  cut {sent req out got} hsent hask hresp hlong hgot := by
    rw [plainPeer_eq hsent hask, answers_cons (request_not_last hask) hresp rfl] at hgot
    have hread := eq_ok_of_returned hgot
    obtain ⟨lenBuf, hfour, -, hshort, hin⟩ := (readFrame_consumes _).ok hread
    have hwire : leBytes 4 (out.length % 2 ^ 32) ++ out = lenBuf ++ (got ++ (finalState
        (PlainStream.readFrame (.fresh ([out].flatMap PlainStream.wire)))).incoming) := by
      rw [← List.append_assoc]
      exact (List.append_nil _).symm.trans hin
    obtain ⟨-, hout⟩ := List.append_inj hwire ((leBytes_length 4 _).trans hfour.symm)
    exact ⟨hshort, _, hout.symm⟩

end Plain

/-! ## The encrypted transport -/

section Encrypted

/-- `format!("peer ended the handshake ({e})")`, where reading a message can
fail in these two ways; `osText` is what the system calls an error. -/
def ended (osText : Errno → Bytes) : Error → Error
  | .io e => .sync (str "peer ended the handshake (wrong --psk or unsecured listener?): " ++
      osText e)
  | .sync m => .sync (str "peer ended the handshake (wrong --psk or unsecured listener?): " ++
      (str "sync error: " ++ m))
  | e => e

/-- `map_err` -/
def mapError {α σ : Type} (f : Error → Error) (x : EStateM Error σ α) : EStateM Error σ α :=
    fun s =>
  match x s with
  | .ok a s' => .ok a s'
  | .error e s' => .error (f e) s'

variable (W : Snow) (osText : Errno → Bytes)

/-- Initiator side of NNpsk0. -/
def hsInitiator (psk seed : Bytes) : Secure.Io Noise := do
  let params ← orSync (str "noise params") (W.parse PARAMS)
  let hs ← orSync (str "noise init") (W.buildInitiator params psk seed)
  let out ← orSync (str "noise write") (W.writeMessage hs [])
  Secure.writeMsg out.1
  let reply ← mapError (ended osText) (Secure.readMsg MAX_HS_MSG)
  let hs ← orSync (str "noise handshake rejected") (W.readMessage out.2 reply)
  orSync (str "noise transport") (W.intoTransportMode hs)

/-- `SecureStream::connect` -/
def connect (psk seed : Bytes) : Secure.Io Noise := do
  Secure.writeAll PROTO_MAGIC
  Secure.writeAll [PROTO_VERSION, MODE_NOISE]
  hsInitiator W osText psk seed

/-- What an initiator and a responder with these keys can do: the messages are
taken, and the transports are each other's. -/
structure Handshake (W : Snow) (psk seed psk' seed' : Bytes) where
  params : W.Params
  (initiator₀ initiator₁ initiator₂ responder₀ responder₁ responder₂ : W.HandshakeState)
  (hello reply : Bytes)
  (up down : Noise)
  parse : W.parse PARAMS = .ok params
  initiates : W.buildInitiator params psk seed = .ok initiator₀
  greets : W.writeMessage initiator₀ [] = .ok (hello, initiator₁)
  responds : W.buildResponder params psk' seed' = .ok responder₀
  greeted : W.readMessage responder₀ hello = .ok responder₁
  replies : W.writeMessage responder₁ [] = .ok (reply, responder₂)
  replied : W.readMessage initiator₁ reply = .ok initiator₂
  initiator : W.intoTransportMode initiator₂ = .ok ⟨up.encrypt, down.decrypt⟩
  responder : W.intoTransportMode responder₂ = .ok ⟨down.encrypt, up.decrypt⟩
  upward : Documented up
  downward : Documented down
  helloSize : 0 < hello.length ∧ hello.length ≤ MAX_HS_MSG
  replySize : 0 < reply.length ∧ reply.length ≤ MAX_HS_MSG

variable (X sp world)

/-- What `connect` sends before it waits for the listener. -/
def greeting (psk seed : Bytes) : Bytes :=
  (finalState (connect W osText psk seed (.fresh []))).outgoing

/-- The connection once the listener has replied. -/
def dial (psk seed : Bytes) (psk' : Option Bytes) (seed' : Bytes) :
    EStateM.Result Error SecureStream Noise :=
  connect W osText psk seed (.fresh (listenerSays X sp world W psk' seed'
    (greeting W osText psk seed)))

/-- What has been sent on the connection with these requests. -/
def sentOver (psk seed : Bytes) (psk' : Option Bytes) (seed' : Bytes) (sent : List Bytes) : Bytes :=
  match dial X sp world W osText psk seed psk' seed' with
  | .ok N s => (finalState (forEach sent (Secure.writeFrame N) s)).outgoing
  | .error _ s => s.outgoing

/-- The listener at the other end of an encrypted connection. -/
def securePeer (psk seed : Bytes) (psk' : Option Bytes) (seed' : Bytes) : Peer := fun sent =>
  match connect W osText psk seed (.fresh (listenerSays X sp world W psk' seed'
      (sentOver X sp world W osText psk seed psk' seed' sent))) with
  | .ok N s => lastRead (secure N) sent.length s
  | .error _ _ => none

variable {X sp world W osText} {psk seed psk' seed' : Bytes}

/-- What this end encrypts does not depend on what it decrypts with. -/
theorem writeFrame_encrypt (N : Noise) (decrypt : Nat → Bytes → Except Bytes Bytes) :
    Secure.writeFrame ⟨N.encrypt, decrypt⟩ = Secure.writeFrame N := rfl

/-- Reading depends on the decryption alone. -/
theorem readFrame_decrypt (N : Noise) (encrypt : Nat → Bytes → Except Bytes Bytes) :
    Secure.readFrame ⟨encrypt, N.decrypt⟩ = Secure.readFrame N := by
  have hrest : ∀ appLen k out,
      Secure.readRest ⟨encrypt, N.decrypt⟩ appLen k out = Secure.readRest N appLen k out := by
    intro appLen k
    induction k with
    | zero => exact fun _ => rfl
    | succ k ih =>
        intro out
        unfold Secure.readRest
        simp only [ih]
        rfl
  unfold Secure.readFrame
  simp only [hrest]
  rfl

/-- Nothing is read where nothing is to come. -/
theorem readFrame_empty (N : Noise) {s : SecureStream} (hs : s.incoming = []) :
    Secure.readFrame N s = .error (.io .other) { s with incoming := [] } := by
  have hexact : Secure.readExact 4 s = .error (.io .other) { s with incoming := [] } := by
    unfold Secure.readExact
    rw [hs]
    rfl
  simp only [Secure.readFrame, Secure.nextMessage, Secure.readMsg, bind_apply, hexact]

/-- On a stream without payloads no frame is read. -/
theorem silent_of_empty {N : Noise} {s : SecureStream}
    (hs : s.incoming = Secure.wire N s.received (Secure.messages [])) :
    returned (Secure.readFrame N s) = none := by
  rw [readFrame_empty N hs]
  rfl

/-- What is sent in encrypted frames is heard. -/
theorem secure_hears_frames {N : Noise} (hN : Documented N) {l : List Bytes}
    (hfits : ∀ q ∈ l, q.length ≤ Secure.MAX_FRAME) {s : SecureStream}
    (hs : s.incoming = Secure.wire N s.received (Secure.messages l)) : (secureEnd N).Hears s l := by
  induction l generalizing s with
  | nil =>
      exact .done (readFrame_empty N hs)
  | cons q rest ih =>
      refine .more (Secure.readFrame_run hN (hfits q List.mem_cons_self) hs) ?_
      exact ih (fun r hr => hfits r (List.mem_cons_of_mem _ hr)) rfl

/-- Encrypted frames are read one by one. -/
theorem secure_reads_then {N : Noise} (hN : Documented N) {l more : List Bytes}
    (hfits : ∀ q ∈ l, q.length ≤ Secure.MAX_FRAME) {s : SecureStream}
    (hs : s.incoming = Secure.wire N s.received (Secure.messages (l ++ more))) :
    ∃ t, t.incoming = Secure.wire N t.received (Secure.messages more) ∧
      lastRead (secure N) (l.length + 1) s = returned (Secure.readFrame N t) := by
  induction l generalizing s with
  | nil =>
      refine ⟨s, hs, ?_⟩
      unfold lastRead
      rw [List.length_nil, Nat.zero_add]
      unfold Framing.Transport.reads
      have hread : (secure N).readFrame s = Secure.readFrame N s := rfl
      rw [hread]
      cases Secure.readFrame N s <;> rfl
  | cons q rest ih =>
      have hfirst : (secure N).readFrame s = _ :=
        Secure.readFrame_run hN (hfits q List.mem_cons_self) hs
      obtain ⟨t, ht, hlast⟩ := ih (fun r hr => hfits r (List.mem_cons_of_mem _ hr)) (s := { s with
        received := s.received + (1 + (Secure.chunks q).length)
        incoming := Secure.wire N (s.received + (1 + (Secure.chunks q).length))
          (Secure.messages (rest ++ more)) }) rfl
      refine ⟨t, ht, ?_⟩
      rw [← hlast]
      have hsome : ∀ k (u : SecureStream), (secure N).reads (k + 1) u ≠ [] := by
        intro k u
        unfold Framing.Transport.reads
        cases (secure N).readFrame u <;> simp
      unfold lastRead
      rw [List.length_cons, Framing.Transport.reads]
      simp only [hfirst]
      rw [List.getLast?_cons_of_ne_nil (hsome _ _)]
      rfl

variable (osText) in
/-- The initiator's side of a handshake, with what comes after the reply. -/
theorem connect_run (h : Handshake W psk seed psk' seed') {s : SecureStream} {rest : Bytes}
    (hs : s.incoming = framed h.reply ++ rest) :
    connect W osText psk seed s = .ok ⟨h.up.encrypt, h.down.decrypt⟩ { s with
      incoming := rest, outgoing := s.outgoing ++ selector ++ framed h.hello } := by
  have hcap : MAX_HS_MSG ≤ Secure.PLAINTEXT_MSG + 64 := by decide
  have hnum : leNat (leBytes 4 h.reply.length) = h.reply.length := by
    have := h.replySize.2
    have hlow : MAX_HS_MSG < 256 ^ 4 := by decide
    exact leNat_leBytes (by omega)
  have hreply : ∀ out : Bytes, Secure.readMsg MAX_HS_MSG { s with outgoing := out } =
      .ok h.reply { s with incoming := rest, outgoing := out } := fun out =>
    readMsg_run (s := { s with outgoing := out }) (leBytes_length 4 _) hnum h.replySize.1
      h.replySize.2 hs
  have hwrite := @writeMsg_run h.hello (h.helloSize.2.trans hcap)
  simp only [connect, hsInitiator, bind_apply, Secure.writeAll, orSync, h.parse, h.initiates,
    h.greets, pure_apply, hwrite, mapError, hreply, h.replied, h.initiator, selector,
    List.append_assoc]

variable (osText) in
/-- What a connection begins with. -/
theorem greeting_eq (h : Handshake W psk seed psk' seed') :
    greeting W osText psk seed = selector ++ framed h.hello := by
  have hcap : MAX_HS_MSG ≤ Secure.PLAINTEXT_MSG + 64 := by decide
  have hwrite := @writeMsg_run h.hello (h.helloSize.2.trans hcap)
  have hlost : ∀ out, Secure.readMsg MAX_HS_MSG ⟨[], 0, [], out⟩ =
      .error (.io .other) ⟨[], 0, [], out⟩ := fun _ => rfl
  simp only [greeting, connect, hsInitiator, SecureStream.fresh, bind_apply, Secure.writeAll,
    orSync, h.parse, h.initiates, h.greets, pure_apply, hwrite, mapError, hlost, finalState,
    selector, List.append_assoc, List.nil_append]

variable (X sp world) in
/-- What the listener sends to an initiator that goes on with these requests. -/
theorem listenerSays_secured (h : Handshake W psk seed psk' seed') {l : List Bytes}
    (hfits : ∀ q ∈ l, q.length ≤ Secure.MAX_FRAME) :
    listenerSays X sp world W (some psk') seed'
        (selector ++ framed h.hello ++ Secure.wire h.up 0 (Secure.messages l)) =
      framed h.reply ++ Secure.wire h.down 0 (Secure.messages (answers (respond X sp world)
        List.isEmpty (fun out => decide (out.length ≤ Secure.MAX_FRAME)) 0 l)) := by
  have hshakes : Shakes W psk' seed'
      (framed h.hello ++ Secure.wire h.up 0 (Secure.messages l)) h.reply h.responder₂
      (Secure.wire h.up 0 (Secure.messages l)) := by
    have hnum : leNat (leBytes 4 h.hello.length) = h.hello.length := by
      have := h.helloSize.2
      have hlow : MAX_HS_MSG < 256 ^ 4 := by decide
      exact leNat_leBytes (by omega)
    have hcap : MAX_HS_MSG ≤ Secure.PLAINTEXT_MSG + 64 := by decide
    exact .mk h.parse h.responds (leBytes_length 4 _) hnum h.helloSize.1 h.helloSize.2 h.greeted
      h.replies (h.replySize.2.trans hcap)
  have hreader : (secureEnd ⟨h.down.encrypt, h.up.decrypt⟩).read = (secureEnd h.up).read :=
    readFrame_decrypt h.up _
  have hears := secure_hears_frames h.upward hfits
    (s := .fresh (Secure.wire h.up 0 (Secure.messages l))) rfl
  have hopened : Listener.Opened ⟨h.down.encrypt, h.up.decrypt⟩ := ⟨h.down.decrypt, h.downward⟩
  rw [List.append_assoc]
  exact (greeted_replies hshakes hopened h.responder (hears.of_read hreader)).trans
    (congrArg (fun l : Bytes => framed h.reply ++ l) (wire_encrypt h.down _ 0 _))

variable (X sp world osText) in
/-- The connection is made, with the reply to the greeting alone. -/
theorem dial_eq (h : Handshake W psk seed psk' seed') :
    dial X sp world W osText psk seed (some psk') seed' =
      .ok ⟨h.up.encrypt, h.down.decrypt⟩ ⟨[], 0, [], selector ++ framed h.hello⟩ := by
  have hreply := listenerSays_secured X sp world h (l := []) (fun _ hq => by cases hq)
  have hempty : Secure.wire h.up 0 (Secure.messages []) = [] := rfl
  rw [hempty, List.append_nil, ← greeting_eq osText h] at hreply
  unfold dial
  rw [hreply]
  exact connect_run osText h (s := .fresh (framed h.reply ++ [])) rfl

variable (osText) in
/-- The listener at the other end of an encrypted connection, in step with its
client. -/
theorem securePeer_eq (h : Handshake W psk seed psk' seed') {sent : List Bytes} {req : Bytes}
    (hsent : Answered X sp world sent) (hask : Askable req) :
    ∃ t : SecureStream, t.incoming = Secure.wire h.down t.received (Secure.messages
        (answers (respond X sp world) List.isEmpty
          (fun out => decide (out.length ≤ Secure.MAX_FRAME)) sent.length [req])) ∧
      securePeer X sp world W osText psk seed (some psk') seed' (sent ++ [req]) =
        returned (Secure.readFrame h.down t) := by
  have hfits : ∀ q ∈ sent ++ [req], q.length ≤ Secure.MAX_FRAME := fits_of_answered hsent hask
  have hdial := dial_eq X sp world osText h
  have hsentOver : sentOver X sp world W osText psk seed (some psk') seed' (sent ++ [req]) =
      selector ++ framed h.hello ++ Secure.wire h.up 0 (Secure.messages (sent ++ [req])) := by
    have hrun := Secure.writeFrames_run h.upward hfits ⟨[], 0, [], selector ++ framed h.hello⟩
    unfold sentOver
    rw [hdial]
    simp only [writeFrame_encrypt h.up, hrun, finalState, List.length_nil]
  obtain ⟨outs, hlen, houts, happ⟩ := answers_to
    (fun out => decide (out.length ≤ Secure.MAX_FRAME)) (fun _ h => decide_eq_true h) hsent [req]
  have hsaid := (listenerSays_secured X sp world h hfits).trans
    (congrArg (fun l => framed h.reply ++ Secure.wire h.down 0 (Secure.messages l)) happ)
  have hconnect := connect_run osText h (s := .fresh (framed h.reply ++
    Secure.wire h.down 0 (Secure.messages (outs ++ answers (respond X sp world) List.isEmpty
      (fun out => decide (out.length ≤ Secure.MAX_FRAME)) sent.length [req])))) rfl
  obtain ⟨t, ht, hlast⟩ : ∃ t : SecureStream, t.incoming = _ ∧ _ :=
    secure_reads_then h.downward houts (s := ⟨[], 0, Secure.wire h.down 0 (Secure.messages
      (outs ++ answers (respond X sp world) List.isEmpty
        (fun out => decide (out.length ≤ Secure.MAX_FRAME)) sent.length [req])),
      [] ++ selector ++ framed h.hello⟩) rfl
  refine ⟨t, ht, ?_⟩
  have hcount : (sent ++ [req]).length = outs.length + 1 := by simp [hlen]
  have hreader : ∀ k s, (secure ⟨h.up.encrypt, h.down.decrypt⟩).reads k s =
      (secure h.down).reads k s := by
    intro k
    induction k with
    | zero => exact fun _ => rfl
    | succ k ih =>
        intro s
        unfold Framing.Transport.reads
        have hread : (secure ⟨h.up.encrypt, h.down.decrypt⟩).readFrame =
            (secure h.down).readFrame :=
          readFrame_decrypt h.down _
        rw [hread]
        simp only [ih]
  unfold securePeer
  rw [hsentOver, hsaid, hconnect, hcount, ← hlast]
  exact congrArg (fun l => l.getLast?.bind Except.toOption) (hreader _ _)

variable (X sp world osText) in
/-- The listener at the other end of an encrypted connection echoes the steady
peer. -/
theorem secure_echoes (h : Handshake W psk seed psk' seed') :
    Echoes X sp world (securePeer X sp world W osText psk seed (some psk') seed') where
  fits {sent req out} hsent hask hresp hfits := by
    obtain ⟨t, ht, heq⟩ := securePeer_eq osText h hsent hask
    rw [answers_cons (request_not_last hask) hresp (decide_eq_true hfits)] at ht
    rw [heq, Secure.readFrame_run h.downward hfits ht]
    rfl
  refused {sent req e} hsent hask hresp := by
    obtain ⟨t, ht, heq⟩ := securePeer_eq osText h hsent hask
    have hnone : answers (respond X sp world) List.isEmpty
        (fun out => decide (out.length ≤ Secure.MAX_FRAME)) sent.length [req] = [] := by
      simp only [answers, request_not_last hask, hresp, Bool.false_eq_true, if_false]
    rw [hnone] at ht
    rw [heq, silent_of_empty ht]
  cut {sent req out got} hsent hask hresp hlong hgot := by
    obtain ⟨t, ht, heq⟩ := securePeer_eq osText h hsent hask
    have hnone : answers (respond X sp world) List.isEmpty
        (fun out => decide (out.length ≤ Secure.MAX_FRAME)) sent.length [req] = [] := by
      simp only [answers, request_not_last hask, hresp, decide_eq_false hlong, Bool.false_eq_true,
        if_false]
    rw [hnone] at ht
    rw [heq, silent_of_empty ht] at hgot
    cases hgot

/-- What an initiator does once it has greeted. -/
def awaitReply (W : Snow) (osText : Errno → Bytes) (hs : W.HandshakeState) : Secure.Io Noise := do
  let reply ← mapError (ended osText) (Secure.readMsg MAX_HS_MSG)
  let hs ← orSync (str "noise handshake rejected") (W.readMessage hs reply)
  orSync (str "noise transport") (W.intoTransportMode hs)

/-- An initiator's first message. -/
structure Hello (W : Snow) (psk seed : Bytes) (hello : Bytes) (hs : W.HandshakeState) : Prop where
  made : ∃ params hs₀, W.parse PARAMS = .ok params ∧
    W.buildInitiator params psk seed = .ok hs₀ ∧ W.writeMessage hs₀ [] = .ok (hello, hs)
  fits : hello.length ≤ Secure.PLAINTEXT_MSG + 64

/-- A client that connects fails before it has greeted, or waits for a reply. -/
theorem connect_split (W : Snow) (osText : Errno → Bytes) (psk seed : Bytes) :
    (∃ e, ∀ arriving, connect W osText psk seed (.fresh arriving) =
      .error e ⟨[], 0, arriving, selector⟩) ∨
    ∃ hello hs, Hello W psk seed hello hs ∧ ∀ arriving,
      connect W osText psk seed (.fresh arriving) =
        awaitReply W osText hs ⟨[], 0, arriving, selector ++ framed hello⟩ := by
  have hstart : ∀ arriving, connect W osText psk seed (.fresh arriving) =
      hsInitiator W osText psk seed ⟨[], 0, arriving, selector⟩ := fun _ => rfl
  simp only [hstart]
  unfold hsInitiator
  cases hparse : W.parse PARAMS with
  | error e => exact .inl ⟨_, fun _ => rfl⟩
  | ok params =>
      cases hbuild : W.buildInitiator params psk seed with
      | error e => exact .inl ⟨_, fun _ =>
          by simp only [orSync, bind_apply, pure_apply, hbuild]; rfl⟩
      | ok hs₀ =>
          cases hwrite : W.writeMessage hs₀ [] with
          | error e =>
              exact .inl ⟨_, fun _ => by
                simp only [orSync, bind_apply, pure_apply, hbuild, hwrite]; rfl⟩
          | ok out =>
              obtain ⟨hello, hs⟩ := out
              by_cases hfits : hello.length ≤ Secure.PLAINTEXT_MSG + 64
              · refine .inr ⟨hello, hs, ⟨⟨params, hs₀, hparse, hbuild, hwrite⟩, hfits⟩, ?_⟩
                intro arriving
                simp only [orSync, bind_apply, pure_apply, hbuild, hwrite, writeMsg_run hfits]
                rfl
              · refine .inl ⟨.sync (str "noise message oversized"), ?_⟩
                intro arriving
                have hbig : hello.length > Secure.PLAINTEXT_MSG + 64 := Nat.lt_of_not_le hfits
                simp only [orSync, bind_apply, pure_apply, hbuild, hwrite, Secure.writeMsg,
                  if_pos hbig]
                rfl

/-- Whoever gets no reply is not connected. -/
theorem connect_alone (W : Snow) (osText : Errno → Bytes) (psk seed : Bytes) :
    ∃ e s, connect W osText psk seed (.fresh []) = .error e s ∧
      (s.outgoing = selector ∨ ∃ hello hs, Hello W psk seed hello hs ∧
        s.outgoing = selector ++ framed hello) := by
  rcases connect_split W osText psk seed with ⟨e, hfails⟩ | ⟨hello, hs, hhello, hwaits⟩
  · exact ⟨e, _, hfails [], .inl rfl⟩
  · refine ⟨_, _, (hwaits []).trans rfl, .inr ⟨hello, hs, hhello, rfl⟩⟩

/-- The responder does not take an initiator's message. -/
def Estranged (W : Snow) (psk seed psk' seed' : Bytes) : Prop :=
  ∀ params hello hs hs', Hello W psk seed hello hs → W.parse PARAMS = .ok params →
    W.buildResponder params psk' seed' = .ok hs' → ∃ e, W.readMessage hs' hello = .error e

/-- A listener that an unsecured or an estranged client connects to says nothing. -/
theorem listenerSays_estranged (hkeys : Estranged W psk seed psk' seed') :
    listenerSays X sp world W (some psk') seed' (greeting W osText psk seed) = [] := by
  obtain ⟨e, s, hrun, hsaid⟩ := connect_alone W osText psk seed
  have hgreets : greeting W osText psk seed = s.outgoing := by
    unfold greeting
    rw [hrun]
    rfl
  rw [hgreets]
  apply ungreeted_silent
  rintro ⟨arriving, reply, hs', rest, harriving, hshakes⟩
  rcases hsaid with hselect | ⟨hello, hs, hhello, hsent⟩
  · -- the selector alone is followed by no message
    have hempty : arriving = [] := by
      have := harriving.symm.trans hselect
      simpa using this
    cases hshakes with
    | @mk _ _ _ _ lenBuf first _ _ _ _ hfour _ _ _ _ _ _ =>
        have hlen := congrArg List.length hempty
        simp only [List.length_append, List.length_nil] at hlen
        omega
  · have hframed : arriving = framed hello := by
      have := harriving.symm.trans hsent
      exact List.append_cancel_left this
    cases hshakes with
    | @mk params hs₀ hs₁ _ lenBuf first _ _ hparse hbuild hfour hlen _ _ hread _ _ =>
        rw [framed, List.append_assoc] at hframed
        obtain ⟨rfl, hbody⟩ := List.append_inj hframed (hfour.trans (leBytes_length 4 _).symm)
        have hcap : Secure.PLAINTEXT_MSG + 64 < 256 ^ 4 := by decide
        have hnum : leNat (leBytes 4 hello.length) = hello.length := by
          have := hhello.fits
          exact leNat_leBytes (by omega)
        have hfirst : first = hello := by
          have htake := congrArg (List.take hello.length) hbody
          rwa [List.take_left' (hlen.symm.trans hnum), List.take_length] at htake
        obtain ⟨e', he'⟩ := hkeys params hello hs hs₀ hhello hparse hbuild
        rw [hfirst, he'] at hread
        cases hread

/-- An unsecured listener does not answer the selector. -/
theorem listenerSays_unsecured :
    listenerSays X sp world W none seed' (greeting W osText psk seed) = [] := by
  obtain ⟨e, s, hrun, hsaid⟩ := connect_alone W osText psk seed
  have hgreets : greeting W osText psk seed = s.outgoing := by
    unfold greeting
    rw [hrun]
    rfl
  obtain ⟨rest, hrest⟩ : ∃ rest, s.outgoing = PROTO_MAGIC ++ rest := by
    rcases hsaid with hselect | ⟨hello, hs, -, hsent⟩
    · exact ⟨_, hselect⟩
    · exact ⟨[PROTO_VERSION, MODE_NOISE] ++ framed hello,
        by rw [hsent, selector, List.append_assoc]⟩
  rw [hgreets, hrest]
  have hfour : PlainStream.readExact 4 (.fresh (PROTO_MAGIC ++ rest)) =
      .ok PROTO_MAGIC ⟨rest, []⟩ :=
    PlainStream.readExact_run (s := .fresh (PROTO_MAGIC ++ rest)) (a := PROTO_MAGIC) rfl
  exact serveConn_selected hfour rfl

variable (X st sp world W osText)

/-- `pull` from the listener at `addr`, each end with its key, if it has one,
and what it draws at random. -/
def pullOver (client listener : Option (Bytes × Bytes)) (addr : Bytes) : Sys PullReport :=
  match client with
  | none => pull X st addr
      (plainPeer X sp world W (listener.map Prod.fst) ((listener.map Prod.snd).getD []))
  | some (psk, seed) =>
      if 58 ∉ addr then
        throw (.sync (str "connect " ++ addr ++ str ": invalid socket address"))
      else match dial X sp world W osText psk seed (listener.map Prod.fst)
          ((listener.map Prod.snd).getD []) with
        | .error e _ => throw e
        | .ok _ _ => pull X st addr (securePeer X sp world W osText psk seed
            (listener.map Prod.fst) ((listener.map Prod.snd).getD []))

variable {X st sp world W osText}

/-- **A pull over a connection** with the transport that both ends are set to
is the pull over the peer that answers every request from its store: it succeeds
for the same reports, and leaves the same state, also where it fails. -/
theorem pullOver_matched (hsized : ∀ n, FitsUsize (world n)) (addr : Bytes) (m : Machine) :
    Alike (pullOver X st sp world W osText none none addr m)
        (pull X st addr (steadyOver X sp world) m) ∧
      ∀ psk seed psk' seed', Nonempty (Handshake W psk seed psk' seed') →
        Alike (pullOver X st sp world W osText (some (psk, seed)) (some (psk', seed')) addr m)
          (pull X st addr (steadyOver X sp world) m) := by
  constructor
  · exact pull_alike plain_echoes hsized addr m
  · rintro psk seed psk' seed' ⟨h⟩
    have hpull := @pull_alike X st sp world _ (secure_echoes X sp world osText h) hsized addr m
    unfold pullOver
    by_cases haddr : 58 ∉ addr
    · simp only [if_pos haddr]
      unfold pull
      rw [if_pos haddr]
      exact Alike.refl _
    · simp only [if_neg haddr, Option.map_some, Option.getD_some, dial_eq X sp world osText h]
      exact hpull

/-- **Ends that are set differently** do not pull: where one of them has a key
and the other has none, or the listener does not take the client's handshake
message, the pull fails and changes nothing. -/
theorem pullOver_mismatched (psk seed psk' seed' addr : Bytes) (m : Machine) :
    (∃ e, pullOver X st sp world W osText none (some (psk', seed')) addr m = .error e m) ∧
    (∃ e, pullOver X st sp world W osText (some (psk, seed)) none addr m = .error e m) ∧
    (Estranged W psk seed psk' seed' → ∃ e,
      pullOver X st sp world W osText (some (psk, seed)) (some (psk', seed')) addr m =
        .error e m) := by
  have hdial : ∀ (listener : Option Bytes) (seed' : Bytes), listenerSays X sp world W listener seed'
      (greeting W osText psk seed) = [] →
      ∃ e s, dial X sp world W osText psk seed listener seed' = .error e s := by
    intro listener seed' hsilent
    obtain ⟨e, s, hrun, -⟩ := connect_alone W osText psk seed
    unfold dial
    rw [hsilent]
    exact ⟨e, s, hrun⟩
  refine ⟨?_, ?_, fun hkeys => ?_⟩
  · unfold pullOver pull
    by_cases haddr : 58 ∉ addr
    · exact ⟨_, by simp only [if_pos haddr]; rfl⟩
    · have hclosed : ¬ selector <+: [[OP_GET_HEAD]].flatMap PlainStream.wire := by decide
      have hsilent : listenerSays X sp world W (some psk') seed'
          ([[OP_GET_HEAD]].flatMap PlainStream.wire) = [] := serveConn_closed hclosed
      have hnone : plainPeer X sp world W (some psk') seed' ([] ++ [[OP_GET_HEAD]]) = none := by
        unfold plainPeer
        rw [List.nil_append, hsilent]
        rfl
      refine ⟨.io .other, ?_⟩
      simp only [Option.map_some, Option.getD_some, if_neg haddr, bind_apply, look, exchange, hnone]
  · obtain ⟨e, s, hlost⟩ := hdial none [] listenerSays_unsecured
    unfold pullOver
    by_cases haddr : 58 ∉ addr
    · exact ⟨_, by simp only [if_pos haddr]; rfl⟩
    · exact ⟨e, by simp only [if_neg haddr, Option.map_none, Option.getD_none, hlost]; rfl⟩
  · obtain ⟨e, s, hlost⟩ := hdial (some psk') seed' (listenerSays_estranged hkeys)
    unfold pullOver
    by_cases haddr : 58 ∉ addr
    · exact ⟨_, by simp only [if_pos haddr]; rfl⟩
    · exact ⟨e, by simp only [if_neg haddr, Option.map_some, Option.getD_some, hlost]; rfl⟩

/-- Two ends with one key. -/
def smallHandshake : Handshake smallSnow smallKey (List.replicate 32 1) smallKey
    (List.replicate 32 2) where
  params := ()
  initiator₀ := (smallKey, List.replicate 32 1)
  initiator₁ := (smallKey, List.replicate 32 1)
  initiator₂ := (smallKey, List.replicate 32 1)
  responder₀ := (smallKey, List.replicate 32 2)
  responder₁ := (smallKey, List.replicate 32 2)
  responder₂ := (smallKey, List.replicate 32 2)
  hello := List.replicate 32 1 ++ smallKey.take 16
  reply := List.replicate 32 2 ++ smallKey.take 16
  up := Secure.stamped
  down := Secure.stamped
  parse := smallSnow_parse
  initiates := rfl
  greets := rfl
  responds := rfl
  greeted := smallSnow_reads (by decide)
  replies := rfl
  replied := smallSnow_reads (by decide)
  initiator := rfl
  responder := rfl
  upward := Secure.stamped_documented
  downward := Secure.stamped_documented
  helloSize := by decide
  replySize := by decide

/-- A new fabric pulls from one that serves. -/
theorem pullOver_matched_small :
    Alike (pullOver (smallCrates [] [] []) ⟨[str "w"]⟩ ⟨[str "w"]⟩
        (fun _ => servingFabric) smallSnow
        (fun _ => []) (some (smallKey, List.replicate 32 1)) (some (smallKey, List.replicate 32 2))
        (str "h:1") (Machine.start quietFabric))
      (pull (smallCrates [] [] []) ⟨[str "w"]⟩ (str "h:1")
        (steadyOver (smallCrates [] [] []) ⟨[str "w"]⟩ fun _ => servingFabric)
        (Machine.start quietFabric)) :=
  (pullOver_matched (fun _ => servingFabric_fits) (str "h:1") (Machine.start quietFabric)).2 _ _ _ _
    ⟨smallHandshake⟩

/-- Another key makes another mark. -/
theorem smallSnow_estranged : Estranged smallSnow (List.replicate 32 9) (List.replicate 32 1)
    smallKey (List.replicate 32 2) := by
  rintro params hello hs hs' ⟨⟨_, hs₀, -, hbuild, hwrite⟩, -⟩ - hbuild'
  cases hbuild
  cases hbuild'
  cases hwrite
  exact ⟨_, smallSnow_rejects (by decide)⟩

/-- A key that does not match fails the pull and changes nothing. -/
theorem pullOver_mismatched_small : ∃ e,
    pullOver (smallCrates [] [] []) ⟨[str "w"]⟩ ⟨[str "w"]⟩ (fun _ => servingFabric) smallSnow
        (fun _ => []) (some (List.replicate 32 9, List.replicate 32 1))
        (some (smallKey, List.replicate 32 2)) (str "h:1") (Machine.start quietFabric) =
      .error e (Machine.start quietFabric) :=
  (pullOver_mismatched (List.replicate 32 9) (List.replicate 32 1) smallKey (List.replicate 32 2)
    (str "h:1") (Machine.start quietFabric)).2.2 smallSnow_estranged

end Encrypted

end Sockets

end Respawn
