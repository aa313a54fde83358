import Respawn.Completeness
import Respawn.Loading

/-!
# Which honest histories come across

A manifest is read from disk up to one size and from the wire up to another, a
pull counts chunks before it drops repeated ones, and it takes an empty answer
for a missing object.  So a peer may serve a history faithfully that no pull can
take: `pull_delivers_iff` says which histories arrive.
-/

namespace Respawn

open ByteStr FileTree StateLogic

namespace Sync

variable (X : Crates) (st : Store)

/-! ## A peer whose connection does not fail -/

/-- A peer that answers every request from its store. -/
def steady (sp : Store) (fsp : Fs) : Peer := fun sent =>
  match sent.getLast? with
  | some req => (respondFrame X sp fsp req).toOption
  | none => none

section Steady

variable {X} {sp : Store} {fsp : Fs}

/-- What it responds arrives when it fits a frame. -/
theorem exchange_steady {sent : List Bytes} {req resp : Bytes} :
    exchange (steady X sp fsp) sent req = .ok resp ↔
      respondFrame X sp fsp req = .ok resp ∧ resp.length ≤ MAX_FRAME := by
  unfold exchange steady
  rw [List.getLast?_concat]
  cases hresp : respondFrame X sp fsp req with
  | error e => simp [hresp, Except.toOption]
  | ok answer =>
      simp only [hresp, Except.toOption]
      by_cases hlong : answer.length > MAX_FRAME
      · rw [if_pos hlong]
        constructor
        · intro h
          cases h
        · intro h
          cases h.1
          omega
      · rw [if_neg hlong]
        constructor
        · intro h
          cases h
          exact ⟨rfl, by omega⟩
        · intro h
          exact h.1

theorem answers_steady : Answers X sp fsp (steady X sp fsp) := fun _ _ _ h =>
  exchange_steady.mp h

theorem respond_head {h : Hash} (hhead : sp.head fsp = .ok (some h)) :
    respondFrame X sp fsp [OP_GET_HEAD] = .ok (1 :: h.val) := by
  unfold respondFrame
  simp only [if_true, hhead]

/-- A peer answers a request for a manifest with its bytes. -/
theorem respond_manifest {g : Hash} {data : Bytes} (hhas : sp.hasManifest fsp g = true)
    (hdata : sp.getManifestBytes fsp g = .ok data) :
    respondFrame X sp fsp (manifestRequest g) = .ok (payloadFrame data) := by
  unfold respondFrame manifestRequest
  simp only
  rw [if_neg (by decide), dif_pos ⟨trivial, g.2⟩, if_pos hhas]
  simp only [hdata]

/-- It answers a request for an object with its data. -/
theorem respond_object {g : Hash} {data : Bytes} (hdata : sp.getObject X fsp g = .ok data) :
    respondFrame X sp fsp (objectRequest g) = .ok (payloadFrame data) := by
  unfold respondFrame objectRequest
  simp only
  rw [if_neg (by decide), dif_neg (fun h => absurd h.1 (by decide)),
    if_neg (fun h => absurd h.1 (by decide)), dif_pos ⟨trivial, g.2⟩]
  simp only [hdata]

/-- An answer that carries something carries the object. -/
theorem object_of_payload {g : Hash} {resp data : Bytes}
    (hresp : respondFrame X sp fsp (objectRequest g) = .ok resp) (hshort : resp.length ≤ MAX_FRAME)
    (hpayload : framePayload resp = .ok data) (hne : data ≠ []) :
    sp.getObject X fsp g = .ok data := by
  cases hobject : sp.getObject X fsp g with
  | ok bytes =>
      cases (respond_object hobject).symm.trans hresp
      have hlen : bytes.length < 2 ^ 64 := by
        simp only [payloadFrame, List.length_append, leBytes_length, MAX_FRAME] at hshort
        omega
      rw [framePayload_payloadFrame hlen] at hpayload
      exact hpayload
  | error e =>
      have hempty : respondFrame X sp fsp (objectRequest g) = .ok (payloadFrame []) := by
        unfold respondFrame objectRequest
        simp only
        rw [if_neg (by decide), dif_neg (fun h => absurd h.1 (by decide)),
          if_neg (fun h => absurd h.1 (by decide)), dif_pos ⟨trivial, g.2⟩]
        simp only [hobject]
      cases hempty.symm.trans hresp
      rw [framePayload_payloadFrame (by simp)] at hpayload
      exact absurd (Except.ok.inj hpayload).symm hne

end Steady

/-! ## Histories -/

variable (sp : Store) (fsp : Fs)

/-- The snapshots on the parent chain from `h`, newest first. -/
inductive History : Hash → List (Hash × Manifest) → Prop
  | root {h : Hash} {mf : Manifest} (hload : Snapshot.load X sp fsp h = .ok mf)
      (hroot : mf.parent = none) : History h [(h, mf)]
  | child {h p : Hash} {mf : Manifest} {rest : List (Hash × Manifest)}
      (hload : Snapshot.load X sp fsp h = .ok mf) (hparent : mf.parent = some p)
      (hrest : History p rest) : History h ((h, mf) :: rest)

/-- Every chunk that these snapshots list, as often as they list it. -/
def chunksOn (history : List (Hash × Manifest)) : List Hash :=
  history.flatMap fun e => e.2.files.flatMap FileEntry.chunks

/-- A manifest fits a frame with its length before it. -/
def FitsFrame (g : Hash) : Prop :=
  ∀ data, sp.getManifestBytes fsp g = .ok data → 8 + data.length ≤ MAX_FRAME

/-- What of a history a pull can take. -/
structure Transferable (history : List (Hash × Manifest)) : Prop where
  manifests : ∀ e ∈ history, FitsFrame sp fsp e.1
  objects : (chunksOn history).length ≤ MAX_OBJECTS_PER_PULL
  nonempty : ∀ c ∈ chunksOn history, sp.getObject X fsp c ≠ .ok []

section History

variable {X sp fsp} {h : Hash} {l : List (Hash × Manifest)}

/-- A snapshot has one history. -/
theorem History.unique {l' : List (Hash × Manifest)} (hl : History X sp fsp h l)
    (hl' : History X sp fsp h l') : l = l' := by
  induction hl generalizing l' with
  | root hload hroot =>
      cases hl' with
      | root hload' _ =>
          cases hload.symm.trans hload'
          rfl
      | child hload' hparent' _ =>
          cases hload.symm.trans hload'
          rw [hroot] at hparent'
          cases hparent'
  | child hload hparent _ ih =>
      cases hl' with
      | root hload' hroot' =>
          cases hload.symm.trans hload'
          rw [hparent] at hroot'
          cases hroot'
      | child hload' hparent' hrest' =>
          cases hload.symm.trans hload'
          cases hparent.symm.trans hparent'
          rw [ih hrest']

/-- Each snapshot of a history begins the rest of it. -/
theorem History.suffix (hl : History X sp fsp h l) {g : Hash} (hg : g ∈ l.map Prod.fst) :
    ∃ l', l' <:+ l ∧ History X sp fsp g l' := by
  induction hl with
  | root hload hroot =>
      rw [List.mem_singleton.mp hg]
      exact ⟨_, List.suffix_refl _, .root hload hroot⟩
  | child hload hparent hrest ih =>
      rcases List.mem_cons.mp hg with rfl | hlater
      · exact ⟨_, List.suffix_refl _, .child hload hparent hrest⟩
      · obtain ⟨l', hsuffix, hl'⟩ := ih hlater
        exact ⟨l', hsuffix.trans (List.suffix_cons _ _), hl'⟩

/-- No snapshot is its own ancestor. -/
theorem History.nodup (hl : History X sp fsp h l) : (l.map Prod.fst).Nodup := by
  induction hl with
  | root _ _ => simp
  | child hload hparent hrest ih =>
      refine List.nodup_cons.mpr ⟨?_, ih⟩
      intro hagain
      obtain ⟨l', hsuffix, hl'⟩ := hrest.suffix hagain
      have hsame := hl'.unique (.child hload hparent hrest)
      have hle := hsuffix.length_le
      rw [hsame, List.length_cons] at hle
      omega

/-- Every snapshot of a history loads. -/
theorem History.loads (hl : History X sp fsp h l) :
    ∀ e ∈ l, Snapshot.load X sp fsp e.1 = .ok e.2 := by
  induction hl with
  | root hload _ =>
      intro e he
      rw [List.mem_singleton.mp he]
      exact hload
  | child hload _ _ ih =>
      intro e he
      rcases List.mem_cons.mp he with rfl | hlater
      · exact hload
      · exact ih e hlater

end History

/-! ## An empty fabric -/

/-- A fabric as `init` leaves it, as far as a pull looks: no blobs, and nothing
noted about remotes. -/
structure Blank (fs : Fs) : Prop where
  real : st.Real fs
  blobs : ∀ n ∈ [str "objects", str "manifests"], ∀ rest,
    fs.get (st.fabricDir ++ n :: rest) ≠ none →
      rest = [] ∧ fs.get (st.fabricDir ++ [n]) = some .dir
  remotes : fs.get (remotesDir st) = none

variable {st}

/-- There is room for every blob. -/
theorem Blank.vacant {fs : Fs} (hblank : Blank st fs) {kind : Name}
    (hkind : kind ∈ [str "objects", str "manifests"]) (pid n : Nat) (g : Hash) :
    Store.Vacant fs pid n (st.fanPath kind g) := by
  have hnone : ∀ a rest, fs.get (st.fabricDir ++ kind :: a :: rest) = none := by
    intro a rest
    by_contra hsome
    cases (hblank.blobs kind hkind _ hsome).1
  refine ⟨hnone _ _, ?_, ?_⟩
  · intro pre hpre
    rw [Store.fanPath_dropLast] at hpre
    rcases List.prefix_or_prefix_of_prefix hpre (List.prefix_append st.fabricDir _) with
      habove | hbelow
    · exact Or.inl (fs.dir_of_prefix hblank.real.dir habove)
    · obtain ⟨tail, rfl⟩ := hbelow
      have htail := (List.prefix_append_right_inj st.fabricDir).mp hpre
      match tail with
      | [] => exact Or.inl (by rw [List.append_nil]; exact hblank.real.dir)
      | [a] =>
          have ha := (List.cons_prefix_cons.mp htail).1
          subst ha
          by_cases hsome : fs.get (st.fabricDir ++ [a]) = none
          · exact Or.inr hsome
          · exact Or.inl (hblank.blobs a hkind [] hsome).2
      | a :: b :: tail =>
          have ha := (List.cons_prefix_cons.mp htail).1
          subst ha
          exact Or.inr (hnone b tail)
  · rw [Store.fanPath_dropLast, List.append_assoc]
    exact hnone _ _

theorem Blank.no_manifest {fs : Fs} (hblank : Blank st fs) (g : Hash) :
    ¬ st.hasManifest fs g = true := by
  rw [hasManifest_iff hblank.real]
  exact not_not.mpr (hblank.vacant (by simp) 0 0 g).absent

/-! ## The walk along a history -/

section Walks

variable {X sp fsp} {m : Machine} {p : Position} {l : List (Hash × Manifest)} {mf : Manifest}

/-- What a sound store has for a manifest that loads. -/
structure Served (X : Crates) (sp : Store) (fsp : Fs) (g : Hash) (mf : Manifest) (data : Bytes) :
    Prop where
  bytes : sp.getManifestBytes fsp g = .ok data
  has : sp.hasManifest fsp g = true
  hash : X.blake3 data = g
  decodes : Manifest.decode X data = .ok mf

/-- A sound peer serves the manifests it can load. -/
theorem served_of_load (hsound : Sound X sp fsp) {g : Hash}
    (hload : Snapshot.load X sp fsp g = .ok mf) : ∃ data, Served X sp fsp g mf data := by
  obtain ⟨d, hd, hdecode⟩ := (load_eq_ok hsound.real).mp hload
  refine ⟨d.bytes, ?_, ?_, (hsound.addressed _ d hd).manifest g rfl, hdecode⟩
  · unfold Store.getManifestBytes Store.readBlob
    rw [Fs.read_of_get hd]
  · rw [hasManifest_iff hsound.real, hd]
    exact Option.some_ne_none _

/-- A manifest that the peer serves is stored when its frame is not too large. -/
theorem stores_of_served {data : Bytes} (hblank : Blank st m.fs)
    (hjson : ∀ mf, Manifest.decode X [] ≠ .ok mf) (hserved : Served X sp fsp p.cur mf data)
    (hnew : p.cur ∉ p.stored.map Prod.fst) (hmore : p.stored.length < MAX_MANIFESTS_PER_PULL)
    (hfits : 8 + data.length ≤ MAX_FRAME) : p.Stores X st (steady X sp fsp) m data := by
  have hshort : data.length < 2 ^ 64 := by
    simp only [MAX_FRAME] at hfits
    omega
  refine ⟨⟨hnew, hblank.vacant (by simp) _ _ _, hmore⟩,
    ⟨payloadFrame data, ?_, framePayload_payloadFrame hshort⟩, ?_, hserved.hash⟩
  · rw [exchange_steady]
    exact ⟨respond_manifest hserved.has hserved.bytes, by simpa [payloadFrame] using hfits⟩
  · intro hnil
    exact hjson mf (hnil ▸ hserved.decodes)

/-- What is stored came in one frame. -/
theorem Position.Stores.fits {data : Bytes}
    (hstores : p.Stores X st (steady X sp fsp) m data)
    (hhas : sp.hasManifest fsp p.cur = true) : FitsFrame sp fsp p.cur := by
  obtain ⟨resp, hanswer, _⟩ := hstores.delivers.answer
  obtain ⟨hresp, hshort⟩ := exchange_steady.mp hanswer
  intro bytes hbytes
  cases (respond_manifest hhas hbytes).symm.trans hresp
  simpa [payloadFrame] using hshort

theorem chunksOn_cons {g : Hash} {rest : List (Hash × Manifest)} :
    chunksOn ((g, mf) :: rest) = mf.files.flatMap FileEntry.chunks ++ chunksOn rest := by
  simp [chunksOn]

/-- A walk to its end from `p`: what it needs then, and what it has stored. -/
def WalksTo (X : Crates) (st : Store) (peer : Peer) (m : Machine) (p : Position) (w : Walked)
    (stored : List (Hash × Bytes)) : Prop :=
  ∃ p', Relation.ReflTransGen (Step X st peer m) p p' ∧ Outcome X st peer m p' (some w) stored

/-- In a blank store nothing is present but what was stored. -/
theorem Blank.not_present (hblank : Blank st m.fs) (hnew : p.cur ∉ p.stored.map Prod.fst) :
    ¬ p.Present st m := by
  intro hpresent
  rcases hpresent with hhas | hmem
  · exact hblank.no_manifest p.cur hhas
  · exact hnew hmem

/-- The rest of a history is not stored when the walk has gone on to it. -/
theorem new_next {data : Bytes} {g : Hash} {rest : List (Hash × Manifest)}
    (hl : History X sp fsp p.cur ((p.cur, mf) :: rest))
    (hnew : ∀ e ∈ (p.cur, mf) :: rest, e.1 ∉ p.stored.map Prod.fst) :
    ∀ e ∈ rest, e.1 ∉ (p.next data mf g).stored.map Prod.fst := by
  intro e he hin
  rcases List.mem_cons.mp hin with heq | hin
  · exact (List.nodup_cons.mp hl.nodup).1 (List.mem_map.mpr ⟨e, he, heq⟩)
  · exact hnew e (List.mem_cons_of_mem _ he) hin

/-- What is needed of a history is needed by the walk or by the rest of it. -/
theorem needed_next {data : Bytes} {g : Hash} {rest : List (Hash × Manifest)} :
    (p.next data mf g).walked.needed ++ chunksOn rest =
      p.walked.needed ++ chunksOn ((p.cur, mf) :: rest) := by
  rw [chunksOn_cons]
  exact List.append_assoc _ _ _

/-- **A history that fits is walked** to its end. -/
theorem walks_history {h : Hash} (hsound : Sound X sp fsp) (hblank : Blank st m.fs)
    (hjson : ∀ mf, Manifest.decode X [] ≠ .ok mf) (hl : History X sp fsp h l) (hcur : p.cur = h)
    (hnew : ∀ e ∈ l, e.1 ∉ p.stored.map Prod.fst)
    (hlen : p.stored.length + l.length ≤ MAX_MANIFESTS_PER_PULL)
    (hfits : ∀ e ∈ l, FitsFrame sp fsp e.1)
    (hcap : (p.walked.needed ++ chunksOn l).length ≤ MAX_OBJECTS_PER_PULL) :
    ∃ w stored, WalksTo X st (steady X sp fsp) m p w stored ∧
      w.needed = p.walked.needed ++ chunksOn l ∧ (∀ e ∈ p.stored, e ∈ stored) ∧
      ∀ e ∈ l, ∃ data, (e.1, data) ∈ stored ∧ Served X sp fsp e.1 e.2 data := by
  induction hl generalizing p with
  | @root h mf hload hroot =>
      subst hcur
      obtain ⟨data, hserved⟩ := served_of_load hsound hload
      have hstores := stores_of_served hblank hjson hserved (hnew _ List.mem_cons_self)
        (by rw [List.length_singleton] at hlen; omega)
        (hfits _ List.mem_cons_self data hserved.bytes)
      have hneeded : (p.walked.add p.cur mf).needed =
          p.walked.needed ++ chunksOn [(p.cur, mf)] := by
        simp [Walked.add, chunksOn]
      have hreads : p.Reads X data mf := ⟨hserved.decodes, hneeded ▸ hcap⟩
      refine ⟨_, _, ⟨_, .refl, .root hstores hreads hroot⟩, hneeded,
        fun e he => List.mem_cons_of_mem _ he, ?_⟩
      intro e he
      rw [List.mem_singleton.mp he]
      exact ⟨data, List.mem_cons_self, hserved⟩
  | @child h g mf rest hload hparent hrest ih =>
      subst hcur
      obtain ⟨data, hserved⟩ := served_of_load hsound hload
      have hstores := stores_of_served hblank hjson hserved (hnew _ List.mem_cons_self)
        (by rw [List.length_cons] at hlen; omega) (hfits _ List.mem_cons_self data hserved.bytes)
      have hnext : (p.next data mf g).walked.needed ++ chunksOn rest =
          p.walked.needed ++ chunksOn ((p.cur, mf) :: rest) := needed_next
      rw [← hnext] at hcap
      have hreads : p.Reads X data mf := by
        refine ⟨hserved.decodes, ?_⟩
        rw [List.length_append] at hcap
        exact Nat.le_trans (Nat.le_add_right _ _) hcap
      obtain ⟨w, stored, ⟨p', hsteps, hout⟩, hneeded, hkept, hall⟩ := ih (p := p.next data mf g) rfl
        (new_next (.child hload hparent hrest) hnew)
        (by simp only [Position.next, List.length_cons] at hlen ⊢; omega)
        (fun e he => hfits e (List.mem_cons_of_mem _ he)) hcap
      have hstep : Step X st (steady X sp fsp) m p (p.next data mf g) :=
        ⟨data, mf, g, hstores, hreads, hparent, rfl⟩
      refine ⟨w, stored, ⟨p', .head hstep hsteps, hout⟩, hneeded.trans needed_next,
        fun e he => hkept e (List.mem_cons_of_mem _ he), ?_⟩
      intro e he
      rcases List.mem_cons.mp he with rfl | hlater
      · exact ⟨data, hkept _ List.mem_cons_self, hserved⟩
      · exact hall e hlater

/-- **A walk that ends takes only what fits.** -/
theorem fits_of_walk {h : Hash} {w : Walked} {stored : List (Hash × Bytes)}
    (hsound : Sound X sp fsp) (hblank : Blank st m.fs) (hl : History X sp fsp h l)
    (hcur : p.cur = h) (hnew : ∀ e ∈ l, e.1 ∉ p.stored.map Prod.fst)
    (hwalk : WalksTo X st (steady X sp fsp) m p w stored) :
    (∀ e ∈ l, FitsFrame sp fsp e.1) ∧
      (p.walked.needed ++ chunksOn l).length ≤ MAX_OBJECTS_PER_PULL := by
  obtain ⟨p', hsteps, hout⟩ := hwalk
  induction hl generalizing p with
  | @root h mf hload hroot =>
      subst hcur
      obtain ⟨data, hserved⟩ := served_of_load hsound hload
      rcases Relation.ReflTransGen.cases_head hsteps with rfl | ⟨_, hstep, _⟩
      · cases hout with
        | met hpresent => exact absurd hpresent (hblank.not_present (hnew _ List.mem_cons_self))
        | root hstores hreads _ =>
            cases hload.symm.trans (load_of_honest answers_steady hstores hreads.decodes)
            refine ⟨?_, ?_⟩
            · intro e he
              rw [List.mem_singleton.mp he]
              exact hstores.fits hserved.has
            · rw [chunksOn_cons]
              simpa [chunksOn, Walked.add] using hreads.within
      · obtain ⟨_, _, _, hstores, hreads, hparent, _⟩ := hstep
        cases hload.symm.trans (load_of_honest answers_steady hstores hreads.decodes)
        rw [hroot] at hparent
        cases hparent
  | @child h g mf rest hload hparent hrest ih =>
      subst hcur
      obtain ⟨data, hserved⟩ := served_of_load hsound hload
      rcases Relation.ReflTransGen.cases_head hsteps with rfl | ⟨_, hstep, hsteps'⟩
      · cases hout with
        | met hpresent => exact absurd hpresent (hblank.not_present (hnew _ List.mem_cons_self))
        | root hstores hreads hroot =>
            cases hload.symm.trans (load_of_honest answers_steady hstores hreads.decodes)
            rw [hparent] at hroot
            cases hroot
      · obtain ⟨data', mf', g', hstores, hreads, hparent', rfl⟩ := hstep
        cases hload.symm.trans (load_of_honest answers_steady hstores hreads.decodes)
        cases hparent.symm.trans hparent'
        obtain ⟨hframes, hcap⟩ := ih rfl (new_next (.child hload hparent hrest) hnew) hsteps'
        refine ⟨?_, by rwa [needed_next] at hcap⟩
        intro e he
        rcases List.mem_cons.mp he with rfl | hlater
        · exact hstores.fits hserved.has
        · exact hframes e hlater

end Walks

/-! ## The conversation about the chunks -/

section Asking

variable {X sp fsp} {fs : Fs} {pid k : Nat} {a b : Asking} {S : Hash → Prop}

/-- What is left to ask for has `S`. -/
structure Asking.Among (S : Hash → Prop) (a : Asking) : Prop where
  todo : ∀ e ∈ a.todo, S e.1
  later : ∀ batch ∈ a.later, batch.length ≤ HAVE_BATCH ∧ ∀ c ∈ batch, S c

/-- At the start the needed chunks are to be asked for. -/
theorem among_start {w : Walked} (h : ∀ c ∈ w.needed, S c) : (Asking.start w).Among S := by
  refine ⟨by simp [Asking.start], ?_⟩
  intro batch hbatch
  refine ⟨length_of_mem_batches hbatch, ?_⟩
  intro c hc
  exact h c (mem_sortDedup.mp (mem_of_mem_batches hbatch hc))

/-- Asking stays among the chunks that are needed. -/
theorem Asking.Among.step {peer : Peer} (h : a.Among S)
    (hstep : AskStep X st peer fs pid k a b) : b.Among S := by
  cases hstep with
  | ask htodo hlater _ _ =>
      have hbatch := h.later _ (hlater ▸ List.mem_cons_self)
      refine ⟨?_, fun b hb => h.later b (hlater ▸ List.mem_cons_of_mem _ hb)⟩
      intro e he
      exact hbatch.2 e.1 (List.of_mem_zip he).1
  | skip htodo _ => exact ⟨fun e he => h.todo e (htodo ▸ List.mem_cons_of_mem _ he), h.later⟩
  | get htodo _ => exact ⟨fun e he => h.todo e (htodo ▸ List.mem_cons_of_mem _ he), h.later⟩

/-- A conversation is about the chunks that the walk needed. -/
theorem among_of_asks {peer : Peer} {w : Walked}
    (hasks : Relation.ReflTransGen (AskStep X st peer fs pid k) (Asking.start w) b) :
    b.Among (· ∈ w.needed) := by
  induction hasks with
  | refl => exact among_start fun _ hc => hc
  | tail _ hstep ih => exact ih.step hstep

/-- The peer has a chunk, and it is not empty. -/
def Gives (X : Crates) (sp : Store) (fsp : Fs) (c : Hash) (data : Bytes) : Prop :=
  sp.getObject X fsp c = .ok data ∧ data ≠ []

/-- **The conversation goes on** while it is about chunks that the peer gives. -/
theorem asks_on (hblank : Blank st fs) (hgives : ∀ c, S c → ∃ data, Gives X sp fsp c data)
    (hamong : a.Among S) (hmore : a.Unfinished) :
    ∃ b, AskStep X st (steady X sp fsp) fs pid k a b := by
  cases htodo : a.todo with
  | cons next rest =>
      obtain ⟨c, offered⟩ := next
      by_cases hskip : offered ≠ 1 ∨ a.Here st fs c
      · exact ⟨_, .skip htodo hskip⟩
      · obtain ⟨hone, hnew⟩ := not_or.mp hskip
        rw [not_not.mp hone] at htodo
        obtain ⟨data, hdata, hne⟩ := hgives c (hamong.todo _ (htodo ▸ List.mem_cons_self))
        obtain ⟨hhash, hshort⟩ := Store.blake3_of_getObject X sp hdata
        refine ⟨_, .get htodo ⟨hnew, hblank.vacant (by simp) _ _ _,
          ⟨payloadFrame data, ?_, framePayload_payloadFrame ?_⟩, hne, hhash⟩⟩
        · refine exchange_steady.mpr ⟨respond_object hdata, ?_⟩
          simp only [payloadFrame, List.length_append, leBytes_length]
          simp only [MAX_OBJECT_SIZE, CDC_MAX] at hshort
          simp only [MAX_FRAME]
          omega
        · simp only [MAX_OBJECT_SIZE, CDC_MAX] at hshort
          omega
  | nil =>
      cases hlater : a.later with
      | cons batch rest =>
          have hbatch := (hamong.later batch (hlater ▸ List.mem_cons_self)).1
          refine ⟨_, .ask htodo hlater (exchange_steady.mpr ⟨respond_have hbatch, ?_⟩)
            (by rw [List.length_map])⟩
          rw [List.length_map]
          simp only [HAVE_BATCH] at hbatch
          simp only [MAX_FRAME]
          omega
      | nil =>
          rcases hmore with hne | hne
          · exact absurd htodo hne
          · exact absurd hlater hne

/-- What the conversation has obtained the peer gave. -/
theorem gives_of_got {w : Walked}
    (hasks : Relation.ReflTransGen (AskStep X st (steady X sp fsp) fs pid k) (Asking.start w) b) :
    ∀ e ∈ b.got, ∃ data, Gives X sp fsp e.1 data ∧ e.2 = X.zstdEncode data := by
  induction hasks with
  | refl => simp [Asking.start]
  | tail _ hstep ih =>
      cases hstep with
      | ask _ _ _ _ => exact ih
      | skip _ _ => exact ih
      | get _ hobtains =>
          intro e he
          rcases List.mem_cons.mp he with rfl | he
          · obtain ⟨resp, hanswer, hpayload⟩ := hobtains.delivers.answer
            obtain ⟨hresp, hshort⟩ := exchange_steady.mp hanswer
            exact ⟨_, ⟨object_of_payload hresp hshort hpayload hobtains.delivers.nonempty,
              hobtains.delivers.nonempty⟩, rfl⟩
          · exact ih e he

end Asking

/-! ## The pull -/

section Pull

variable {X sp fsp} {addr : Bytes} {m m' : Machine} {h : Hash} {l : List (Hash × Manifest)}

/-- The snapshots of a history load here, and their chunks are those of the
peer. -/
structure Mirrors (X : Crates) (st sp : Store) (fsp fs : Fs)
    (l : List (Hash × Manifest)) : Prop where
  manifests : ∀ e ∈ l, Snapshot.load X st fs e.1 = .ok e.2
  objects : ∀ c ∈ chunksOn l, ∃ data, sp.getObject X fsp c = .ok data ∧
    st.getObject X fs c = .ok data

/-- An object that is stored is read back. -/
theorem getObject_of_file {fs : Fs} {c : Hash} {d : FileData} {data : Bytes} (hzstd : Lossless X)
    (hfile : fs.get (st.objectPath c) = some (.file d)) (hbytes : d.bytes = X.zstdEncode data)
    (hshort : data.length ≤ MAX_OBJECT_SIZE) (hhash : X.blake3 data = c) :
    st.getObject X fs c = .ok data := by
  have hblob : Store.readBlob fs (st.objectPath c) c = .ok d.bytes := by
    unfold Store.readBlob
    rw [Fs.read_of_get hfile]
  have hread : X.zstdRead (MAX_OBJECT_SIZE + 1) d.bytes = .ok data := by
    rw [hbytes, hzstd data, List.take_of_length_le (by omega)]
  unfold Store.getObject
  rw [hblob]
  simp only [bind, Except.bind, hread, ioErr]
  rw [if_neg (by omega), if_neg (not_not.mpr hhash)]

/-- An object that is read is there. -/
theorem hasObject_of_getObject {fs : Fs} {c : Hash} {data : Bytes} (hreal : st.Real fs)
    (hget : st.getObject X fs c = .ok data) : st.hasObject fs c = true := by
  have hin : st.fabricDir <+: st.objectPath c :=
    (Store.fabricDir_prefix_fanPath _ _).trans (List.dropLast_prefix _)
  have hnames : ∀ n ∈ st.objectPath c, ValidName n := Store.fanPath_names hreal (by decide) c
  rw [hasObject_iff hreal]
  intro hnone
  cases hread : fs.read (st.objectPath c) with
  | ok bytes =>
      obtain ⟨d, hd, _⟩ := (hreal.read_eq_ok hin hnames).mp hread
      cases hnone.symm.trans hd
  | error e =>
      unfold Store.getObject Store.readBlob at hget
      rw [hread] at hget
      cases e <;> cases hget

/-- The note on the remote is written where there was none. -/
theorem note_ok (hreal : st.Real m.fs) (haddr : 58 ∈ addr) (hnone : m.fs.get (remotesDir st) = none)
    (text : Bytes) :
    ∃ w m', io (createDirAll (remotesDir st)) m = .ok () { m with toWorld := w } ∧
      io (writeFile (remotesDir st ++ [sanitize addr]) text) { m with toWorld := w } =
        .ok () m' := by
  have hnames : ∀ n ∈ remotesDir st, ValidName n := Purge.record_names hreal (by decide)
  have hway : ∀ pre, pre <+: remotesDir st → m.fs.get pre = some .dir ∨ m.fs.get pre = none := by
    intro pre hpre
    rcases List.prefix_concat_iff.mp hpre with rfl | hup
    · exact Or.inr hnone
    · exact Or.inl (m.fs.dir_of_prefix hreal.dir hup)
  obtain ⟨w, hmake⟩ := createDirAll_ok (w := m.toWorld) hnames hway
  have hmade := (createDirAll_after (w := m.toWorld) hnames fun pre hpre =>
    hreal.noLink (List.prefix_append _ _) hpre).ok hmake
  have hnames' : ∀ n ∈ remotesDir st ++ [sanitize addr], ValidName n := by
    intro n hn
    rcases List.mem_append.mp hn with hn | hn
    · exact hnames n hn
    · rw [List.mem_singleton.mp hn]
      exact validName_sanitize haddr
  have hfresh : w.fs.get (remotesDir st ++ [sanitize addr]) = none := by
    rcases hmade.1.adds (remotesDir st ++ [sanitize addr]) with heq | ⟨hpre, _, _⟩
    · rw [heq]
      apply Option.eq_none_iff_forall_ne_some.mpr
      intro x hx
      cases hnone.symm.trans (m.fs.parents _ _ (m.fs.mem_nodes hx))
    · have hle := hpre.length_le
      rw [List.length_append, List.length_singleton] at hle
      omega
  obtain ⟨w₁, d, hopen, hd, _⟩ := openAppend_of_dir (w := w) hnames' (by simp)
    (by rw [List.dropLast_concat]; exact hmade.2) (Or.inl ⟨hfresh, rfl⟩)
  obtain ⟨w₂, hwrite⟩ : ∃ w₂, writeFile (remotesDir st ++ [sanitize addr]) text w = .ok () w₂ := by
    obtain ⟨w₃, htruncate⟩ : ∃ w₃, openTruncate (remotesDir st ++ [sanitize addr]) w =
        .ok (remotesDir st ++ [sanitize addr]) w₃ := by
      unfold openTruncate
      rw [hopen]
      exact ⟨_, rfl⟩
    exact ⟨_, bind_eq_ok.mpr ⟨_, _, htruncate, rfl⟩⟩
  exact ⟨w, _, io_eq_ok.mpr ⟨w, hmake, rfl⟩, io_eq_ok.mpr ⟨w₂, hwrite, rfl⟩⟩

/-- A walk that can end with a result does. -/
theorem walk_of_ends {peer : Peer} {w : Walked} {stored : List (Hash × Bytes)} {p' : Position}
    (hreal : st.Real m.fs) (hends : Ends X st peer m h (some w) stored p') :
    ∃ m₁, walk X st peer MAX_MANIFESTS_PER_PULL [] ⟨[[OP_GET_HEAD]], [], 0⟩ h m = .ok w m₁ ∧
      At st (str "manifests") m stored m₁ := by
  have hafter : After (walk X st peer MAX_MANIFESTS_PER_PULL
      ((Position.start h).stored.map Prod.fst) (Position.start h).walked (Position.start h).cur m)
      _ _ := walk_after hreal (At.refl hreal) rfl
  cases hcase : walk X st peer MAX_MANIFESTS_PER_PULL
      ((Position.start h).stored.map Prod.fst) (Position.start h).walked (Position.start h).cur m
      with
  | ok w' m₁ =>
      obtain ⟨_, _, hsteps', hout', hat⟩ := hafter.ok hcase
      have hsame := hends.unique hreal ⟨hsteps', hout'⟩
      cases hsame.1
      cases hsame.2
      exact ⟨m₁, hcase, hat⟩
  | error e m₁ =>
      obtain ⟨_, _, hsteps', hout', _⟩ := hafter.error hcase
      cases (hends.unique hreal ⟨hsteps', hout'⟩).1

/-- A conversation about chunks that the peer gives goes through. -/
theorem fetch_of_gives {w : Walked} {stored : List (Hash × Bytes)} {m₁ : Machine}
    (hblank : Blank st m.fs) (hat : At st (str "manifests") m stored m₁)
    (hgives : ∀ c ∈ w.needed, ∃ data, Gives X sp fsp c data) :
    ∃ f m₂ b, fetchBatches X st (steady X sp fsp)
        (batches HAVE_BATCH (sortDedup w.needed).length (sortDedup w.needed)) ⟨w.sent, 0, 0⟩ m₁ =
        .ok f m₂ ∧
      Relation.ReflTransGen (AskStep X st (steady X sp fsp) m₁.fs m₁.pid m₁.tmpCounter)
        (Asking.start w) b ∧
      b.todo = [] ∧ b.later = [] ∧ Added st (str "objects") b.got m₁.fs m₂.fs := by
  have hreal := hblank.real
  have hreal₁ := hat.gained.real
  have hafter : After (fetchBatches X st (steady X sp fsp) _ ⟨w.sent, 0, 0⟩ m₁) _ _ :=
    fetchBatches_after (a := Asking.start w) hreal₁ (At.refl hreal₁) rfl rfl rfl
  cases hcase : fetchBatches X st (steady X sp fsp)
      (batches HAVE_BATCH (sortDedup w.needed).length (sortDedup w.needed)) ⟨w.sent, 0, 0⟩ m₁ with
  | ok f m₂ =>
      obtain ⟨b, hasks, htodo, hlater, hadded⟩ := hafter.ok hcase
      exact ⟨f, m₂, b, rfl, hasks, htodo, hlater, hadded⟩
  | error e m₂ =>
      obtain ⟨b, hasks, hstuck, hmore, _⟩ := hafter.error hcase
      have hamong : b.Among (· ∈ w.needed) := among_of_asks hasks
      obtain ⟨c, hstep⟩ : ∃ c, AskStep X st (steady X sp fsp) m.fs m₁.pid m₁.tmpCounter b c :=
        asks_on hblank hgives hamong hmore
      exact absurd (hstep.of_objects hreal hreal₁ (hat.gained.added hreal).outside) (hstuck c)

/-- **A history that fits is delivered.** -/
theorem pullHead_delivers (hzstd : Lossless X) (hsound : Sound X sp fsp) (hblank : Blank st m.fs)
    (haddr : 58 ∈ addr) (hjson : ∀ mf, Manifest.decode X [] ≠ .ok mf)
    (hl : History X sp fsp h l) (hlen : l.length ≤ MAX_MANIFESTS_PER_PULL)
    (hread : ∀ c ∈ chunksOn l, ∃ data, sp.getObject X fsp c = .ok data)
    (hfits : Transferable X sp fsp l) :
    ∃ r m', pullHead X st addr (steady X sp fsp) h m = .ok r m' ∧ Mirrors X st sp fsp m'.fs l := by
  have hreal := hblank.real
  have hgives : ∀ c ∈ chunksOn l, ∃ data, Gives X sp fsp c data := by
    intro c hc
    obtain ⟨data, hdata⟩ := hread c hc
    exact ⟨data, hdata, fun hnil => hfits.nonempty c hc (hnil ▸ hdata)⟩
  obtain ⟨w, stored, ⟨p', hsteps, hout⟩, hneeded, _, hall⟩ := walks_history
    (p := Position.start h) hsound hblank hjson hl rfl (by simp [Position.start])
    (by simpa [Position.start] using hlen) hfits.manifests
    (by simpa [Position.start] using hfits.objects)
  have hneeded : w.needed = chunksOn l := by simpa [Position.start] using hneeded
  obtain ⟨m₁, hwalk, hat⟩ := walk_of_ends hreal ⟨hsteps, hout⟩
  have hwalked := hat.gained.added hreal
  obtain ⟨f, m₂, b, hfetch, hasks, htodo, hlater, hadded⟩ :=
    fetch_of_gives hblank hat (hneeded ▸ hgives)
  have hnone : m₂.fs.get (remotesDir st) = none := by
    have helsewhere : Elsewhere st (str "manifests") (remotesDir st) ∧
        Elsewhere st (str "objects") (remotesDir st) :=
      remotes_elsewhere (List.prefix_refl (remotesDir st))
    rw [hadded.outside _ helsewhere.2, hwalked.outside _ helsewhere.1]
    exact hblank.remotes
  obtain ⟨w₃, m₄, hmake, hwrite⟩ := note_ok hadded.real haddr hnone (hashHex h)
  -- the note leaves the blobs alone
  have hnoted : st.Touched (AmongRemotes st) m₂.fs m₄.fs := by
    have h₃ := (remotes_touches hadded.real).ok hmake
    exact h₃.trans ((remote_touches h₃.real haddr).ok hwrite)
  refine ⟨_, m₄, bind_eq_ok.mpr ⟨w, m₁, hwalk, bind_eq_ok.mpr ⟨f, m₂, hfetch,
    bind_eq_ok.mpr ⟨(), _, hmake, bind_eq_ok.mpr ⟨(), m₄, hwrite, rfl⟩⟩⟩⟩, ?_, ?_⟩
  · intro e he
    obtain ⟨data, hstored, hserved⟩ := hall e he
    obtain ⟨d, hd, hbytes⟩ := hat.gained.stored _ hstored
    have hkeep : m₄.fs.get (st.manifestPath e.1) = m₁.fs.get (st.manifestPath e.1) := by
      have hplace : st.fabricDir ++ [str "manifests"] <+: st.manifestPath e.1 :=
        kind_prefix_fanPath e.1
      rw [hnoted.frame _ fun hq => (remotes_elsewhere hq).1 hplace,
        hadded.outside _ (elsewhere_of_above (by decide) hplace)]
    refine (load_eq_ok hnoted.real).mpr ⟨d, hkeep.trans hd, ?_⟩
    rw [hbytes]
    exact hserved.decodes
  · intro c hc
    have hhas : sp.hasObject fsp c = true := by
      obtain ⟨data, hdata, _⟩ := hgives c hc
      exact hasObject_of_getObject hsound.real hdata
    have hhere := here_of_needed answers_steady hhas (hneeded ▸ hc) hasks htodo hlater
    obtain ⟨e, he, rfl⟩ : ∃ e ∈ b.got, e.1 = c := by
      rcases hhere with hold | hgot
      · have hplace : st.fabricDir ++ [str "objects"] <+: st.objectPath c := kind_prefix_fanPath c
        rw [hasObject_iff hat.gained.real,
          hwalked.outside _ (elsewhere_of_above (by decide) hplace)] at hold
        exact absurd (hblank.vacant (by simp) 0 0 c).absent hold
      · exact List.mem_map.mp hgot
    obtain ⟨data, ⟨hdata, _⟩, hstored⟩ := gives_of_got hasks e he
    obtain ⟨d, hd, hbytes⟩ := hadded.stored e he
    obtain ⟨hhash, hshort⟩ := Store.blake3_of_getObject X sp hdata
    have hkeep : m₄.fs.get (st.objectPath e.1) = m₂.fs.get (st.objectPath e.1) :=
      hnoted.frame _ fun hq => (remotes_elsewhere hq).2 (kind_prefix_fanPath e.1)
    exact ⟨data, hdata, getObject_of_file hzstd (hkeep.trans hd) (hbytes.trans hstored)
      hshort hhash⟩

theorem offers_steady (hhead : sp.head fsp = .ok (some h)) : Offers (steady X sp fsp) h := by
  refine exchange_steady.mpr ⟨respond_head hhead, ?_⟩
  simp only [List.length_cons, h.2, MAX_FRAME]
  omega

/-- A history that arrives was one that fits. -/
theorem transferable_of_pull {r : PullReport} (hsound : Sound X sp fsp) (hblank : Blank st m.fs)
    (haddr : 58 ∈ addr) (hjson : ∀ mf, Manifest.decode X [] ≠ .ok mf)
    (hhead : sp.head fsp = .ok (some h)) (hl : History X sp fsp h l)
    (hlen : l.length ≤ MAX_MANIFESTS_PER_PULL)
    (hpull : pull X st addr (steady X sp fsp) m = .ok r m') : Transferable X sp fsp l := by
  have hoffers : Offers (steady X sp fsp) h := offers_steady hhead
  have hafter : After (pull X st addr (steady X sp fsp) m) _ _ := pull_after hblank.real
  rcases hafter.ok hpull with ⟨_, hquiet, _⟩ | ⟨h', w, stored, p, b, _, hdone⟩
  · exact absurd ⟨haddr, hoffers⟩ (hquiet h)
  cases hoffers.unique hdone.pulled.offers
  obtain ⟨hframes, hcap⟩ := fits_of_walk (p := Position.start h) hsound hblank hl rfl
    (by simp [Position.start]) ⟨p, hdone.pulled.ends.comes, hdone.pulled.ends.outcome⟩
  obtain ⟨w', stored', ⟨p', hsteps, hout⟩, hneeded, _⟩ := walks_history
    (p := Position.start h) hsound hblank hjson hl rfl (by simp [Position.start])
    (by simpa [Position.start] using hlen) hframes hcap
  cases (Ends.unique hblank.real hdone.pulled.ends ⟨hsteps, hout⟩).1
  refine ⟨hframes, by simpa [Position.start] using hcap, ?_⟩
  -- what was fetched was not empty
  intro c hc hempty
  have hin : c ∈ w.needed := by
    rw [hneeded]
    exact List.mem_append_right _ hc
  have hhere := here_of_needed answers_steady (hasObject_of_getObject hsound.real hempty) hin
    hdone.supplied.asks hdone.todo hdone.later
  rcases hhere with hold | hgot
  · rw [hasObject_iff hblank.real] at hold
    exact hold (hblank.vacant (by simp) 0 0 c).absent
  · obtain ⟨e, he, rfl⟩ := List.mem_map.mp hgot
    obtain ⟨data, ⟨hdata, hne⟩, _⟩ := gives_of_got hdone.supplied.asks e he
    cases hempty.symm.trans hdata
    exact hne rfl

/-- **Which honest histories arrive.**  A pull into an empty fabric from a sound
peer over a connection that does not fail succeeds and leaves the history of the
peer's HEAD here with its chunks exactly when each manifest fits a frame, the
chunks are few enough counted as often as they are listed, and none is empty. -/
theorem pull_delivers_iff (hzstd : Lossless X) (hsound : Sound X sp fsp) (hblank : Blank st m.fs)
    (haddr : 58 ∈ addr) (hjson : ∀ mf, X.manifestOfJson [] ≠ .ok mf)
    (hhead : sp.head fsp = .ok (some h)) (hl : History X sp fsp h l)
    (hlen : l.length ≤ MAX_MANIFESTS_PER_PULL)
    (hread : ∀ c ∈ chunksOn l, ∃ data, sp.getObject X fsp c = .ok data) :
    (∃ r m', pull X st addr (steady X sp fsp) m = .ok r m' ∧ Mirrors X st sp fsp m'.fs l) ↔
      Transferable X sp fsp l := by
  have hempty : ∀ mf, Manifest.decode X [] ≠ .ok mf := fun mf h =>
    hjson mf (Manifest.decode_ok h).1
  constructor
  · intro hpulled
    obtain ⟨r, m', hpull, _⟩ := hpulled
    exact transferable_of_pull hsound hblank haddr hempty hhead hl hlen hpull
  · intro hfits
    obtain ⟨r, m', hpull, hmirrors⟩ :=
      pullHead_delivers hzstd hsound hblank haddr hempty hl hlen hread hfits
    refine ⟨r, m', ?_, hmirrors⟩
    unfold pull
    rw [if_neg (not_not.mpr haddr)]
    refine bind_eq_ok.mpr ⟨1 :: h.val, m, look_eq_ok.mpr ⟨offers_steady hhead, rfl⟩, ?_⟩
    rw [dif_pos ⟨by simp [h.2], rfl⟩]
    exact hpull

end Pull

/-! ## Small pulls -/

/-- A store without blobs and remotes is blank. -/
theorem Blank.of_keys {fs : Fs} (hreal : st.Real fs)
    (h : ∀ k ∈ fs.nodes.keys, ∀ n ∈ [str "objects", str "manifests"],
      st.fabricDir ++ [n] <+: k → k = st.fabricDir ++ [n] ∧ fs.get k = some .dir)
    (hremotes : fs.get (remotesDir st) = none) : Blank st fs := by
  refine ⟨hreal, ?_, hremotes⟩
  intro n hn rest hsome
  obtain ⟨x, hx⟩ := Option.ne_none_iff_exists'.mp hsome
  obtain ⟨heq, hdir⟩ := h _ (fs.mem_keys hx) n hn ⟨rest, by simp⟩
  have hrest : n :: rest = [n] := List.append_cancel_left heq
  rw [heq] at hdir
  exact ⟨(List.cons.inj hrest).2, hdir⟩

theorem newFabric_blank : Blank ⟨[str "w"]⟩ newFabric :=
  .of_keys newFabric_real (by decide +kernel) (by decide +kernel)

/-- The history of the fabric with two snapshots. -/
def pairHistory : List (Hash × Manifest) :=
  (pairTable.map fun e => (padHash e.1, e.2)).reverse

/-- That history arrives. -/
theorem pull_delivers_iff_pair :
    ∃ r m', pull pairCrates ⟨[str "w"]⟩ (str "peer:7") (steady pairCrates ⟨[str "p"]⟩ pairFabric)
      (Machine.start newFabric) = .ok r m' ∧
      Mirrors pairCrates ⟨[str "w"]⟩ ⟨[str "p"]⟩ pairFabric m'.fs pairHistory := by
  have hsound : Sound pairCrates ⟨[str "p"]⟩ pairFabric :=
    ⟨Store.Real.of_keys (by decide +kernel) (by decide +kernel),
      Addressed.of_hashes _ _ (fun _ _ => rfl) (by decide +kernel)⟩
  have hhistory : History pairCrates ⟨[str "p"]⟩ pairFabric (padHash (str "two")) pairHistory :=
    .child (eq_ok_of_toOption (by decide +kernel)) rfl
      (.root (eq_ok_of_toOption (by decide +kernel)) rfl)
  have hgives : ∀ c ∈ chunksOn pairHistory,
      ((Store.getObject pairCrates ⟨[str "p"]⟩ pairFabric c).toOption.all (· ≠ [])) = true ∧
        (Store.getObject pairCrates ⟨[str "p"]⟩ pairFabric c).toOption.isSome = true := by
    decide +kernel
  have hframes : ∀ e ∈ pairHistory, ((Store.getManifestBytes ⟨[str "p"]⟩ pairFabric
      e.1).toOption.all fun data => 8 + data.length ≤ MAX_FRAME) = true := by decide +kernel
  refine (pull_delivers_iff (fun _ _ => rfl) hsound newFabric_blank (by decide)
    (by intro mf h; cases h) (eq_ok_of_toOption (by decide +kernel)) hhistory (by decide)
    ?_).mpr ⟨?_, by decide, ?_⟩
  · intro c hc
    obtain ⟨data, hdata⟩ := Option.isSome_iff_exists.mp (hgives c hc).2
    exact ⟨data, eq_ok_of_toOption hdata⟩
  · intro e he data hdata
    have hcheck := hframes e he
    rw [hdata] at hcheck
    simpa [Except.toOption] using hcheck
  · intro c hc hempty
    have hcheck := (hgives c hc).1
    rw [hempty] at hcheck
    simp [Except.toOption] at hcheck

/-- The snapshot of the new fabric with this message. -/
def sayingManifest (message : Bytes) : Manifest :=
  { Snapshot.newManifest with message := message }

/-- Crates whose JSON of such a snapshot quotes the message. -/
def sayingCrates : Crates :=
  { smallCrates [] [] [] with
    manifestToJson := fun mf => 34 :: (mf.message ++ [34])
    manifestOfJson := fun b => match b with
      | 34 :: rest => .ok (sayingManifest rest.dropLast)
      | _ => .error (str "expected value") }

/-- As many bytes as a frame may have. -/
def frameMessage : Bytes := List.replicate MAX_FRAME 97

/-- The peer's worktree is snapshotted with that message. -/
abbrev sayingPeer : EStateM.Result Error Machine Hash :=
  Snapshot.createFromActor sayingCrates ⟨[str "w"]⟩ [str "w"] frameMessage none
    (Machine.start Snapshot.newFabric)

/-- What the peer has then. -/
theorem sayingPeer_ok : ∃ id, sayingPeer = .ok id (finalState sayingPeer) ∧
    Sound sayingCrates ⟨[str "w"]⟩ (finalState sayingPeer).fs ∧
    Store.head ⟨[str "w"]⟩ (finalState sayingPeer).fs = .ok (some id) ∧
    ∃ d, (finalState sayingPeer).fs.get (Store.manifestPath ⟨[str "w"]⟩ id) = some (.file d) ∧
      d.bytes = 34 :: (frameMessage ++ [34]) := by
  obtain ⟨id, hcreate⟩ := exists_of_succeeded (r := sayingPeer) (by decide +kernel)
  have hsound : Sound sayingCrates ⟨[str "w"]⟩ (Machine.start Snapshot.newFabric).fs :=
    ⟨Store.Real.of_keys (by decide +kernel) (by decide +kernel),
      Addressed.of_keys _ _ (by decide +kernel)⟩
  obtain ⟨mf, m₁, hbuild, hstore⟩ := bind_eq_ok.mp hcreate
  obtain ⟨tombs, parent, _, _, hmf, _, hreal₁, hsame⟩ :=
    Snapshot.buildManifest_ok (fun _ => Snapshot.excluded_of_fabric) hsound.real hbuild
  have hstored := Snapshot.storeManifest_ok hreal₁ hstore
  refine ⟨id, hcreate, (Snapshot.createFromActor_sound (fun _ _ => rfl) hsound).ok hcreate,
    hstored.head, ?_⟩
  obtain ⟨d, hd, hbytes⟩ := hstored.fresh
    ((hsame id).trans (Snapshot.no_manifest_of_keys (by decide +kernel) id))
  refine ⟨d, hd, hbytes.trans ?_⟩
  rw [hmf]
  rfl

/-- A peer whose snapshot is read from disk, with a short history and a chunk
that is there, but too large for a frame: it is not pulled. -/
theorem pull_misses_large : ∃ fsp h l,
    Sound sayingCrates ⟨[str "w"]⟩ fsp ∧ Store.head ⟨[str "w"]⟩ fsp = .ok (some h) ∧
      History sayingCrates ⟨[str "w"]⟩ fsp h l ∧ l.length ≤ MAX_MANIFESTS_PER_PULL ∧
      (chunksOn l).length ≤ MAX_OBJECTS_PER_PULL ∧
      (∀ c ∈ chunksOn l, ∃ data, Store.getObject sayingCrates ⟨[str "w"]⟩ fsp c = .ok data) ∧
      ∀ r m', pull sayingCrates ⟨[str "w"]⟩ (str "peer:7") (steady sayingCrates ⟨[str "w"]⟩ fsp)
        (Machine.start newFabric) ≠ .ok r m' := by
  obtain ⟨id, hcreate, hsound, hhead, d, hd, hbytes⟩ := sayingPeer_ok
  have hlength : d.bytes.length = MAX_FRAME + 2 := by
    rw [hbytes, List.length_cons, List.length_append, frameMessage, List.length_replicate]
    rfl
  have hdecode : Manifest.decode sayingCrates d.bytes = .ok (sayingManifest frameMessage) := by
    have hjson : sayingCrates.manifestOfJson d.bytes = .ok (sayingManifest frameMessage) := by
      rw [hbytes]
      simp only [sayingCrates, List.dropLast_concat]
    have hshort : ¬ d.bytes.length > MAX_MANIFEST_SIZE := by
      rw [hlength]
      decide
    unfold Manifest.decode Manifest.deserialize
    rw [if_neg hshort, hjson]
    rfl
  have hhistory : History sayingCrates ⟨[str "w"]⟩ (finalState sayingPeer).fs id
      [(id, sayingManifest frameMessage)] :=
    .root ((load_eq_ok hsound.real).mpr ⟨d, hd, hdecode⟩) rfl
  have hchunks : chunksOn [(id, sayingManifest frameMessage)] = [padHash (str "A")] := rfl
  have hread : ∀ c ∈ chunksOn [(id, sayingManifest frameMessage)], ∃ data,
      Store.getObject sayingCrates ⟨[str "w"]⟩ (finalState sayingPeer).fs c = .ok data := by
    rw [hchunks]
    intro c hc
    rw [List.mem_singleton.mp hc]
    exact ⟨str "A", eq_ok_of_toOption (by decide +kernel)⟩
  have hlen : [(id, sayingManifest frameMessage)].length ≤ MAX_MANIFESTS_PER_PULL := by
    rw [List.length_singleton]
    decide
  refine ⟨_, id, _, hsound, hhead, hhistory, hlen, by rw [hchunks]; decide, hread, ?_⟩
  intro r m' hpull
  have hfits := (transferable_of_pull hsound newFabric_blank (by decide)
    (fun mf h => by cases (Manifest.decode_ok h).1) hhead hhistory hlen hpull).manifests
      _ (List.mem_singleton_self _)
  have hdata : Store.getManifestBytes ⟨[str "w"]⟩ (finalState sayingPeer).fs id = .ok d.bytes := by
    unfold Store.getManifestBytes Store.readBlob
    rw [Fs.read_of_get hd]
  have hlong := hfits d.bytes hdata
  omega

end Sync

end Respawn
