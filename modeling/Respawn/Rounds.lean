import Mathlib.Data.List.Count
import Respawn.Conversation
import Respawn.Fetch

/-!
# How long a peer can keep a pull going

A peer may answer a pull with whatever it likes, and choose its answers from
the requests it has seen.  What bounds the conversation is on the asking side:
the walk remembers the manifests it has asked for and counts them
(`walk_bounded`), the chunks of all manifests together are capped before any of
them is asked for, and their hashes are sorted, freed of repetitions and cut
into batches (`batches_bounded`).  `pull_rounds` puts the bounds together.
-/

namespace Respawn

open ByteStr FileTree StateLogic Conversation

namespace Sync

variable {X : Crates} {st : Store} {peer : Peer} {m : Machine}

/-! ## The walk -/

variable (peer m) in
/-- One exchange sends its request and no other. -/
theorem exchange_asks (sent : List Bytes) (req : Bytes) :
    Confined (fun p => look fun _ => exchange p sent req) peer sent [req] m := by
  apply confined_ask
  intro p p' h
  unfold look exchange
  rw [h]

variable (X st peer m) in
theorem fetchManifest_asks (sent : List Bytes) (cur : Hash) :
    Confined (fun p => fetchManifest X st p sent cur) peer sent [manifestRequest cur] m :=
  (exchange_asks peer m sent (manifestRequest cur)).before

/-- What the walk does with a manifest that has arrived. -/
def walkOn (X : Crates) (st : Store) (p : Peer) (fuel : Nat) (visited : List Hash) (w : Walked)
    (cur : Hash) (mf : Manifest) : Sys Walked :=
  let needed := w.needed ++ mf.files.flatMap FileEntry.chunks
  if needed.length > MAX_OBJECTS_PER_PULL then throw (.sync (str "pull exceeds object cap"))
  else
    let w' : Walked := ⟨w.sent ++ [manifestRequest cur], needed, w.fetched + 1⟩
    match mf.parent with
    | none => pure w'
    | some parent => walk X st p fuel (cur :: visited) w' parent

variable (X) in
/-- The walk past its first questions: the manifest `cur` is not here and has not
been visited. -/
theorem walk_next (fuel : Nat) {visited : List Hash} (w : Walked) {cur : Hash}
    (hpresent : st.hasManifest m.fs cur = false) (hnew : cur ∉ visited) (p : Peer) :
    walk X st p (fuel + 1) visited w cur m =
      (fetchManifest X st p w.sent cur >>= walkOn X st p fuel visited w cur) m := by
  unfold walk
  rw [bind_apply, look_get, hpresent]
  simp only [Bool.false_eq_true, if_false, if_neg hnew]
  refine congrArg (fun f => (fetchManifest X st p w.sent cur >>= f) m) (funext fun mf => ?_)
  unfold walkOn
  cases mf.parent <;> rfl

variable (X peer) in
/-- A walk that stops at once. -/
theorem walk_stops {fuel : Nat} {visited : List Hash} (w : Walked) {cur : Hash}
    (h : fuel = 0 ∨ st.hasManifest m.fs cur = true ∨ cur ∈ visited) :
    (∀ p q, walk X st p fuel visited w cur m = walk X st q fuel visited w cur m) ∧
      ∀ w' m', walk X st peer fuel visited w cur m = .ok w' m' → w' = w := by
  have hall : ∃ r, (∀ p, walk X st p fuel visited w cur m = r) ∧
      ∀ w' m', r = .ok w' m' → w' = w := by
    by_cases hpresent : st.hasManifest m.fs cur = true
    · refine ⟨.ok w m, fun p => ?_, fun w' m' hrun => (EStateM.Result.ok.inj hrun).1.symm⟩
      cases fuel <;> unfold walk <;> rw [bind_apply, look_get, hpresent] <;> rfl
    · have hmissing : st.hasManifest m.fs cur = false := Bool.eq_false_iff.mpr hpresent
      by_cases hvisited : cur ∈ visited
      · refine ⟨.error (.sync (str "manifest chain cycle")) m, fun p => ?_,
          fun w' m' hrun => by cases hrun⟩
        cases fuel <;> unfold walk <;> rw [bind_apply, look_get, hmissing] <;>
          simp only [Bool.false_eq_true, if_false, if_pos hvisited] <;> rfl
      · obtain rfl | hhere | hbefore := h
        · refine ⟨.error (.sync (str "manifest chain too long")) m, fun p => ?_,
            fun w' m' hrun => by cases hrun⟩
          unfold walk
          rw [bind_apply, look_get, hmissing]
          simp only [Bool.false_eq_true, if_false, if_neg hvisited]
          rfl
        · exact absurd hhere hpresent
        · exact absurd hbefore hvisited
  obtain ⟨r, hr, hok⟩ := hall
  refine ⟨fun p q => (hr p).trans (hr q).symm, fun w' m' hrun => hok w' m' ?_⟩
  rw [← hr peer, hrun]

/-- What a walk that begins after the requests in `sent`, with the manifests in
`visited` behind it, asks: manifests `more`, each once, none of those visited and
no more than `fuel`; and what it has then sent and needs. -/
structure WalkAsks (run : Peer → Sys Walked) (peer : Peer) (sent : List Bytes) (fuel : Nat)
    (visited : List Hash) (small : Prop) (m : Machine) (more : List Hash) : Prop where
  length : more.length ≤ fuel
  nodup : more.Nodup
  apart : ∀ h ∈ more, h ∉ visited
  confined : Confined run peer sent (more.map manifestRequest) m
  sent : ∀ w' m', run peer m = .ok w' m' → w'.sent = sent ++ more.map manifestRequest
  needed : small → ∀ w' m', run peer m = .ok w' m' → w'.needed.length ≤ MAX_OBJECTS_PER_PULL

/-- A walk that asks nothing more. -/
theorem WalkAsks.none {run : Peer → Sys Walked} {sent : List Bytes} {fuel : Nat}
    {visited : List Hash} {small : Prop} (hfree : ∀ p q, run p m = run q m)
    (hsent : ∀ w' m', run peer m = .ok w' m' → w'.sent = sent)
    (hneeded : small → ∀ w' m', run peer m = .ok w' m' →
      w'.needed.length ≤ MAX_OBJECTS_PER_PULL) :
    WalkAsks run peer sent fuel visited small m [] where
  length := Nat.zero_le fuel
  nodup := List.nodup_nil
  apart := fun _ hmem => (List.not_mem_nil hmem).elim
  confined := confined_of_free hfree _
  sent := fun w' m' hrun => (hsent w' m' hrun).trans (List.append_nil _).symm
  needed := hneeded

variable (X st peer) in
/-- The walk from any position, with `fuel` manifests to go. -/
def WalkBounded (fuel : Nat) : Prop :=
  ∀ (visited : List Hash) (w : Walked) (cur : Hash) (m : Machine), ∃ more : List Hash,
    WalkAsks (fun p => walk X st p fuel visited w cur) peer w.sent fuel visited
      (w.needed.length ≤ MAX_OBJECTS_PER_PULL) m more

/-- One manifest more, and the walk asks for one manifest more. -/
theorem walkOn_asks {fuel : Nat} (ih : WalkBounded X st peer fuel) (visited : List Hash)
    (w : Walked) (cur : Hash) (mf : Manifest) (m : Machine) :
    ∃ more : List Hash, WalkAsks (fun p => walkOn X st p fuel visited w cur mf) peer
      (w.sent ++ [manifestRequest cur]) fuel (cur :: visited) True m more := by
  by_cases hcap : MAX_OBJECTS_PER_PULL < (w.needed ++ mf.files.flatMap FileEntry.chunks).length
  · have hstop (p : Peer) : walkOn X st p fuel visited w cur mf m =
        .error (.sync (str "pull exceeds object cap")) m := by
      unfold walkOn
      simp only [gt_iff_lt, if_pos hcap]
      rfl
    refine ⟨[], .none (fun p q => (hstop p).trans (hstop q).symm) ?_ ?_⟩
    · intro w' m' hrun
      rw [hstop] at hrun
      cases hrun
    · intro _ w' m' hrun
      rw [hstop] at hrun
      cases hrun
  · have hfits := Nat.le_of_not_lt hcap
    cases hparent : mf.parent with
    | none =>
        have hend (p : Peer) : walkOn X st p fuel visited w cur mf m =
            .ok ⟨w.sent ++ [manifestRequest cur], w.needed ++ mf.files.flatMap FileEntry.chunks,
              w.fetched + 1⟩ m := by
          unfold walkOn
          simp only [gt_iff_lt, if_neg hcap, hparent]
          rfl
        refine ⟨[], .none (fun p q => (hend p).trans (hend q).symm) ?_ ?_⟩
        · intro w' m' hrun
          rw [hend] at hrun
          obtain ⟨rfl, -⟩ := EStateM.Result.ok.inj hrun
          rfl
        · intro _ w' m' hrun
          rw [hend] at hrun
          obtain ⟨rfl, -⟩ := EStateM.Result.ok.inj hrun
          exact hfits
    | some parent =>
        have hon (p : Peer) : walkOn X st p fuel visited w cur mf =
            walk X st p fuel (cur :: visited) ⟨w.sent ++ [manifestRequest cur],
              w.needed ++ mf.files.flatMap FileEntry.chunks, w.fetched + 1⟩ parent := by
          unfold walkOn
          simp only [gt_iff_lt, if_neg hcap, hparent]
        obtain ⟨more, hmore⟩ := ih (cur :: visited) ⟨w.sent ++ [manifestRequest cur],
          w.needed ++ mf.files.flatMap FileEntry.chunks, w.fetched + 1⟩ parent m
        refine ⟨more, ?_⟩
        simp only [hon]
        exact { hmore with needed := fun _ => hmore.needed hfits }

variable (X st peer) in
/-- **The walk asks for manifests only**: each at most once, none of those
visited before, and no more than its cap allows.  The induction is on what the
cap still allows; the visited list carries the requests already made. -/
theorem walk_bounded (fuel : Nat) : WalkBounded X st peer fuel := by
  induction fuel with
  | zero =>
      intro visited w cur m
      obtain ⟨hfree, hsame⟩ := walk_stops X peer (m := m) w (.inl rfl)
      exact ⟨[], .none hfree (fun w' m' hrun => by rw [hsame w' m' hrun])
        fun hsmall w' m' hrun => by rwa [hsame w' m' hrun]⟩
  | succ fuel ih =>
      intro visited w cur m
      by_cases hstops : st.hasManifest m.fs cur = true ∨ cur ∈ visited
      · obtain ⟨hfree, hsame⟩ := walk_stops X peer w (.inr hstops)
        exact ⟨[], .none hfree (fun w' m' hrun => by rw [hsame w' m' hrun])
          fun hsmall w' m' hrun => by rwa [hsame w' m' hrun]⟩
      · obtain ⟨hpresent, hnew⟩ := not_or.mp hstops
        have hnext := walk_next X fuel w
          (Bool.eq_false_iff.mpr hpresent) hnew
        have hone := fetchManifest_asks X st peer m w.sent cur
        cases hfetch : fetchManifest X st peer w.sent cur m with
        | error e m₁ =>
            have hfail (w' : Walked) (m' : Machine) :
                walk X st peer (fuel + 1) visited w cur m ≠ .ok w' m' := by
              rw [hnext, bind_apply, hfetch]
              exact fun hrun => by cases hrun
            exact ⟨[cur],
              { length := Nat.le_add_left 1 fuel
                nodup := List.nodup_singleton cur
                apart := fun h hmem => List.mem_singleton.mp hmem ▸ hnew
                confined := (hone.bind_error hfetch).congr hnext
                sent := fun w' m' hrun => absurd hrun (hfail w' m')
                needed := fun _ w' m' hrun => absurd hrun (hfail w' m') }⟩
        | ok mf m₁ =>
            obtain ⟨more, hmore⟩ := walkOn_asks ih visited w cur mf m₁
            have hrest (w' : Walked) (m' : Machine)
                (hrun : walk X st peer (fuel + 1) visited w cur m = .ok w' m') :
                walkOn X st peer fuel visited w cur mf m₁ = .ok w' m' := by
              rw [hnext, bind_apply, hfetch] at hrun
              exact hrun
            exact ⟨cur :: more,
              { length := Nat.succ_le_succ hmore.length
                nodup := List.nodup_cons.mpr
                  ⟨fun hmem => hmore.apart cur hmem List.mem_cons_self, hmore.nodup⟩
                apart := by
                  intro h hmem
                  obtain rfl | hlater := List.mem_cons.mp hmem
                  · exact hnew
                  · exact fun hvisited => hmore.apart h hlater (List.mem_cons_of_mem cur hvisited)
                confined := (hone.bind hfetch hmore.confined).congr hnext
                sent := fun w' m' hrun => by
                  rw [hmore.sent w' m' (hrest w' m' hrun), List.append_assoc]
                  rfl
                needed := fun _ w' m' hrun => hmore.needed trivial w' m' (hrest w' m' hrun) }⟩

/-! ## The objects -/

variable (X st peer) in
/-- One object is asked for once, or not at all. -/
theorem fetchObject_asks (f : Fetched) (h : Hash) (offered : UInt8) (m : Machine) :
    ∃ objs : List Hash, objs.Sublist [h] ∧
      Confined (fun p => fetchObject X st p f h offered) peer f.sent (objs.map objectRequest) m ∧
      ∀ f' m', fetchObject X st peer f h offered m = .ok f' m' →
        f'.sent = f.sent ++ objs.map objectRequest := by
  by_cases hwanted : offered = 1 ∧ ¬ st.hasObject m.fs h = true
  · have hask (p : Peer) : fetchObject X st p f h offered m =
        ((look fun _ => exchange p f.sent (objectRequest h)) >>= fun resp =>
          (look fun _ => framePayload resp) >>= fun data =>
            if data = [] then throw (.sync (str "remote missing object " ++ short h))
            else st.putObjectAs X h data >>= fun _ =>
              pure { f with sent := f.sent ++ [objectRequest h], fetched := f.fetched + 1 }) m := by
      unfold fetchObject
      rw [bind_apply, look_get]
      simp only [if_pos hwanted]
      rfl
    refine ⟨[h], List.Sublist.refl _, ?_, fun f' m' hrun => ?_⟩
    · exact ((exchange_asks peer m f.sent (objectRequest h)).before).congr hask
    · rw [hask] at hrun
      obtain ⟨resp, m₁, -, hrest⟩ := bind_eq_ok.mp hrun
      obtain ⟨data, m₂, -, hstored⟩ := bind_eq_ok.mp hrest
      by_cases hempty : data = []
      · rw [if_pos hempty] at hstored
        cases hstored
      · rw [if_neg hempty] at hstored
        obtain ⟨_, m₃, -, hend⟩ := bind_eq_ok.mp hstored
        obtain ⟨rfl, -⟩ := EStateM.Result.ok.inj hend
        rfl
  · have hskip (p : Peer) : fetchObject X st p f h offered m =
        .ok { f with skipped := f.skipped + 1 } m := by
      unfold fetchObject
      rw [bind_apply, look_get]
      simp only [if_neg hwanted]
      rfl
    refine ⟨[], List.nil_sublist _, confined_of_free (fun p q => ?_) _, fun f' m' hrun => ?_⟩
    · exact (hskip p).trans (hskip q).symm
    · rw [hskip] at hrun
      obtain ⟨rfl, -⟩ := EStateM.Result.ok.inj hrun
      exact (List.append_nil _).symm

variable (X st peer) in
/-- Within a batch only objects of the batch are asked for, each at most as often
as it is in the batch. -/
theorem fetchObjects_asks (l : List (Hash × UInt8)) (f : Fetched) (m : Machine) :
    ∃ objs : List Hash, objs.Sublist (l.map Prod.fst) ∧
      Confined (fun p => fetchObjects X st p l f) peer f.sent (objs.map objectRequest) m ∧
      ∀ f' m', fetchObjects X st peer l f m = .ok f' m' →
        f'.sent = f.sent ++ objs.map objectRequest := by
  induction l generalizing f m with
  | nil =>
      refine ⟨[], List.Sublist.refl _, confined_of_free (fun _ _ => rfl) _, fun f' m' hrun => ?_⟩
      obtain ⟨rfl, -⟩ := EStateM.Result.ok.inj hrun
      exact (List.append_nil _).symm
  | cons a rest ih =>
      obtain ⟨h, offered⟩ := a
      obtain ⟨first, hfirst, hconfined, hsent⟩ :=
        fetchObject_asks X st peer f h offered m
      cases hrun : fetchObject X st peer f h offered m with
      | error e m₁ =>
          refine ⟨first, hfirst.trans ?_, hconfined.bind_error hrun, fun f' m' hok => ?_⟩
          · exact (List.nil_sublist _).cons_cons h
          · obtain ⟨f₁, m₁, hok₁, -⟩ := bind_eq_ok.mp hok
            rw [hrun] at hok₁
            cases hok₁
      | ok f₁ m₁ =>
          obtain ⟨later, hlater, hmore, hend⟩ := ih f₁ m₁
          rw [hsent f₁ m₁ hrun] at hmore hend
          refine ⟨first ++ later, ?_, ?_, fun f' m' hok => ?_⟩
          · exact hfirst.append hlater
          · rw [List.map_append]
            exact hconfined.bind hrun hmore
          · obtain ⟨f₂, m₂, hok₂, hrest⟩ := bind_eq_ok.mp hok
            obtain ⟨rfl, rfl⟩ := EStateM.Result.ok.inj (hrun.symm.trans hok₂)
            rw [hend f' m' hrest, List.map_append, List.append_assoc]

/-- The requests of one batch: the HAVE request and those for its objects. -/
def batchRequests (part : List Hash × List Hash) : List Bytes :=
  haveRequest part.1 :: part.2.map objectRequest

variable (X st peer) in
/-- The batches `l` are gone through in order, and each is asked for once. -/
def BatchesBounded (l : List (List Hash)) : Prop :=
  ∀ (f : Fetched) (m : Machine), ∃ parts : List (List Hash × List Hash),
    parts.map Prod.fst <+: l ∧ (∀ part ∈ parts, part.2.Sublist part.1) ∧
      Confined (fun p => fetchBatches X st p l f) peer f.sent (parts.flatMap batchRequests) m

/-- The objects of a batch and the batches after it. -/
theorem batch_asks {rest : List (List Hash)} (ih : BatchesBounded X st peer rest)
    {batch : List Hash} {offered : Bytes} (hlen : offered.length = batch.length) (f : Fetched)
    (m : Machine) :
    ∃ (objs : List Hash) (parts : List (List Hash × List Hash)), objs.Sublist batch ∧
      parts.map Prod.fst <+: rest ∧ (∀ part ∈ parts, part.2.Sublist part.1) ∧
      Confined (fun p => fetchObjects X st p (batch.zip offered) f >>= fetchBatches X st p rest)
        peer f.sent (objs.map objectRequest ++ parts.flatMap batchRequests) m := by
  obtain ⟨objs, hobjs, hconfined, hsent⟩ :=
    fetchObjects_asks X st peer (batch.zip offered) f m
  rw [List.map_fst_zip (Nat.le_of_eq hlen.symm)] at hobjs
  cases hrun : fetchObjects X st peer (batch.zip offered) f m with
  | error e m₁ =>
      refine ⟨objs, [], hobjs, List.nil_prefix, fun _ hmem => (List.not_mem_nil hmem).elim, ?_⟩
      rw [List.flatMap_nil, List.append_nil]
      exact hconfined.bind_error hrun
  | ok f₁ m₁ =>
      obtain ⟨parts, hparts, hwithin, hmore⟩ := ih f₁ m₁
      rw [hsent f₁ m₁ hrun] at hmore
      exact ⟨objs, parts, hobjs, hparts, hwithin, hconfined.bind hrun hmore⟩

variable (X st peer) in
/-- The batches of a list of hashes are bounded by it. -/
theorem batches_bounded (l : List (List Hash)) : BatchesBounded X st peer l := by
  induction l with
  | nil =>
      intro f m
      exact ⟨[], List.prefix_rfl, fun _ hmem => (List.not_mem_nil hmem).elim,
        confined_of_free (fun _ _ => rfl) _⟩
  | cons batch rest ih =>
      intro f m
      have hhave := exchange_asks peer m f.sent (haveRequest batch)
      cases hanswer : exchange peer f.sent (haveRequest batch) with
      | error e =>
          refine ⟨[(batch, [])], ⟨rest, rfl⟩, ?_, ?_⟩
          · intro part hpart
            rw [List.mem_singleton.mp hpart]
            exact List.nil_sublist _
          · exact hhave.bind_error (look_eq_error.mpr ⟨hanswer, rfl⟩)
      | ok offered =>
          have hlook : look (fun _ => exchange peer f.sent (haveRequest batch)) m =
            .ok offered m := look_eq_ok.mpr ⟨hanswer, rfl⟩
          by_cases hlen : offered.length = batch.length
          · obtain ⟨objs, parts, hobjs, hparts, hwithin, hmore⟩ := batch_asks ih hlen
              { f with sent := f.sent ++ [haveRequest batch] } m
            refine ⟨(batch, objs) :: parts, ?_, ?_, ?_⟩
            · exact (List.prefix_cons_inj batch).mpr hparts
            · exact List.forall_mem_cons.mpr ⟨hobjs, hwithin⟩
            · refine hhave.bind hlook (hmore.congr fun p => ?_)
              simp only [hlen, ne_eq, not_true_eq_false, if_false]
          · refine ⟨[(batch, [])], ⟨rest, rfl⟩, ?_, ?_⟩
            · intro part hpart
              rw [List.mem_singleton.mp hpart]
              exact List.nil_sublist _
            · show Confined _ peer f.sent ([haveRequest batch] ++ []) m
              refine hhave.bind hlook (confined_of_free (fun p q => ?_) _)
              simp only [ne_eq, hlen, not_false_eq_true, if_true]

/-! ## Counting -/

/-- The number of pieces is the length over the size of a piece, rounded up. -/
theorem length_batches {α : Type} {n : Nat} (hn : 0 < n) (k : Nat) (l : List α) :
    (batches n k l).length ≤ (l.length + n - 1) / n := by
  induction k generalizing l with
  | zero => exact Nat.zero_le _
  | succ k ih =>
      cases l with
      | nil => exact Nat.zero_le _
      | cons a rest =>
          have hrest := ih ((a :: rest).drop n)
          rw [List.length_drop] at hrest
          simp only [batches, List.length_cons] at hrest ⊢
          by_cases hfull : n ≤ rest.length + 1
          · have hsplit : rest.length + 1 + n - 1 = (rest.length + 1 - n + n - 1) + n := by omega
            rw [hsplit, Nat.add_div_right _ hn]
            exact Nat.succ_le_succ hrest
          · have hlast : (rest.length + 1 - n + n - 1) / n = 0 := Nat.div_eq_of_lt (by omega)
            have hone : 1 ≤ (rest.length + 1 + n - 1) / n := (Nat.one_le_div_iff hn).mpr (by omega)
            omega

/-- The batches hold the hashes in their order. -/
theorem flatten_batches_sublist {α : Type} (n k : Nat) (l : List α) :
    (batches n k l).flatten.Sublist l := by
  induction k generalizing l with
  | zero => exact List.nil_sublist _
  | succ k ih =>
      cases l with
      | nil => exact List.nil_sublist _
      | cons a rest =>
          have hrest := (List.Sublist.refl ((a :: rest).take n)).append (ih ((a :: rest).drop n))
          rwa [List.take_append_drop] at hrest

theorem nodup_sortDedup (needed : List Hash) : (sortDedup needed).Nodup := List.nodup_dedup _

theorem length_sortDedup (needed : List Hash) : (sortDedup needed).length ≤ needed.length := by
  have hdedup := (List.dedup_sublist (needed.insertionSort fun a b => a.val ≤ b.val)).length_le
  rwa [List.length_insertionSort] at hdedup

/-- The objects that the parts ask for. -/
def asksFor (parts : List (List Hash × List Hash)) : List Hash := parts.flatMap Prod.snd

/-- What the parts ask for is in their batches. -/
theorem asksFor_sublist {parts : List (List Hash × List Hash)}
    (h : ∀ part ∈ parts, part.2.Sublist part.1) :
    (asksFor parts).Sublist (parts.map Prod.fst).flatten := by
  induction parts with
  | nil => exact List.Sublist.refl _
  | cons part rest ih =>
      exact (h part List.mem_cons_self).append (ih fun p hp => h p (List.mem_cons_of_mem part hp))

/-- There is one request for each batch and one for each object. -/
theorem length_requests (parts : List (List Hash × List Hash)) :
    (parts.flatMap batchRequests).length = parts.length + (asksFor parts).length := by
  induction parts with
  | nil => rfl
  | cons part rest ih =>
      simp only [List.flatMap_cons, List.length_append, ih, batchRequests, List.length_cons,
        List.length_map, asksFor]
      omega

/-- An object is requested as often as a batch asks for it. -/
theorem count_objectRequest (parts : List (List Hash × List Hash)) (h : Hash) :
    (parts.flatMap batchRequests).count (objectRequest h) = (asksFor parts).count h := by
  have hinj : Function.Injective objectRequest := fun a b hab =>
    Subtype.ext (List.cons.inj hab).2
  induction parts with
  | nil => rfl
  | cons part rest ih =>
      have hother : haveRequest part.1 ≠ objectRequest h := fun heq =>
        absurd (List.cons.inj heq).1 (by decide)
      simp only [List.flatMap_cons, List.count_append, ih, asksFor, batchRequests]
      rw [List.count_cons_of_ne hother, List.count_map_of_injective part.2 objectRequest hinj]

/-- No request of the fetching is for a manifest. -/
theorem count_manifestRequest (parts : List (List Hash × List Hash)) (h : Hash) :
    (parts.flatMap batchRequests).count (manifestRequest h) = 0 := by
  rw [List.count_eq_zero]
  intro hmem
  obtain ⟨part, -, hpart⟩ := List.mem_flatMap.mp hmem
  obtain hhave | hobject := List.mem_cons.mp hpart
  · exact absurd (List.cons.inj hhave).1 (by decide)
  · obtain ⟨g, -, hg⟩ := List.mem_map.mp hobject
    exact absurd (List.cons.inj hg).1 (by decide)

/-! ## The whole pull -/

/-- What a pull asks once it knows the peer's HEAD: manifests `manifests`, then
the batches of `parts` with their objects. -/
structure HeadAsks (run : Peer → Sys PullReport) (peer : Peer) (m : Machine)
    (manifests : List Hash) (parts : List (List Hash × List Hash)) : Prop where
  manifests_le : manifests.length ≤ MAX_MANIFESTS_PER_PULL
  manifests_nodup : manifests.Nodup
  batches_le : parts.length ≤ (MAX_OBJECTS_PER_PULL + HAVE_BATCH - 1) / HAVE_BATCH
  objects_le : (asksFor parts).length ≤ MAX_OBJECTS_PER_PULL
  objects_nodup : (asksFor parts).Nodup
  confined : Confined run peer [[OP_GET_HEAD]]
    (manifests.map manifestRequest ++ parts.flatMap batchRequests) m

variable (X st peer) in
/-- A pull of a head asks for manifests and then for batches of objects. -/
theorem pullHead_asks (addr : Bytes) (remoteHead : Hash) (m : Machine) :
    ∃ manifests parts, HeadAsks (fun p => pullHead X st addr p remoteHead) peer m manifests
      parts := by
  obtain ⟨manifests, hwalk⟩ := walk_bounded X st peer
    MAX_MANIFESTS_PER_PULL [] ⟨[[OP_GET_HEAD]], [], 0⟩ remoteHead m
  cases hrun : walk X st peer MAX_MANIFESTS_PER_PULL [] ⟨[[OP_GET_HEAD]], [], 0⟩ remoteHead m with
  | error e m₁ =>
      refine ⟨manifests, [], hwalk.length, hwalk.nodup, Nat.zero_le _, Nat.zero_le _,
        List.nodup_nil, ?_⟩
      rw [List.flatMap_nil, List.append_nil]
      exact hwalk.confined.bind_error hrun
  | ok w m₁ =>
      have hsent := hwalk.sent w m₁ hrun
      have hneeded := hwalk.needed (Nat.zero_le _) w m₁ hrun
      have hlen : (sortDedup w.needed).length ≤ MAX_OBJECTS_PER_PULL :=
        (length_sortDedup _).trans hneeded
      obtain ⟨parts, hparts, hwithin, hconfined⟩ := batches_bounded X st peer
        (batches HAVE_BATCH (sortDedup w.needed).length (sortDedup w.needed))
        ⟨w.sent, 0, 0⟩ m₁
      have hobjects : (asksFor parts).Sublist (sortDedup w.needed) := by
        refine ((asksFor_sublist hwithin).trans ?_).trans
          (flatten_batches_sublist HAVE_BATCH (sortDedup w.needed).length _)
        obtain ⟨rest, hrest⟩ := hparts
        rw [← hrest, List.flatten_append]
        exact List.sublist_append_left _ _
      have hcount : parts.length ≤ (MAX_OBJECTS_PER_PULL + HAVE_BATCH - 1) / HAVE_BATCH := by
        have hpieces := length_batches (n := HAVE_BATCH) (by decide)
          (sortDedup w.needed).length (sortDedup w.needed)
        have hfirst := hparts.length_le
        rw [List.length_map] at hfirst
        refine (hfirst.trans hpieces).trans (Nat.div_le_div_right ?_)
        omega
      refine ⟨manifests, parts, hwalk.length, hwalk.nodup, hcount,
        hobjects.length_le.trans hlen, hobjects.nodup (nodup_sortDedup _), ?_⟩
      refine hwalk.confined.bind hrun ?_
      rw [← hsent]
      exact hconfined.before

/-- The rounds of a pull are bounded: so many requests in all, and no manifest and
no object twice. -/
structure Bounded (asked : List Bytes) : Prop where
  length : asked.length ≤ 1 + MAX_MANIFESTS_PER_PULL +
    (MAX_OBJECTS_PER_PULL + HAVE_BATCH - 1) / HAVE_BATCH + MAX_OBJECTS_PER_PULL
  manifest : ∀ h, asked.count (manifestRequest h) ≤ 1
  object : ∀ h, asked.count (objectRequest h) ≤ 1

theorem count_head (h : Hash) : [[OP_GET_HEAD]].count (manifestRequest h) = 0 ∧
    [[OP_GET_HEAD]].count (objectRequest h) = 0 := by
  constructor <;> rw [List.count_eq_zero] <;> intro hmem <;>
    exact absurd (List.cons.inj (List.mem_singleton.mp hmem)).1 (by decide)

/-- Asking for the head alone is within the bounds. -/
theorem bounded_head : Bounded [[OP_GET_HEAD]] where
  length := by
    rw [List.length_singleton, Nat.add_assoc, Nat.add_assoc]
    exact Nat.le_add_right _ _
  manifest := fun h => Nat.le_of_eq (count_head h).1 |>.trans (Nat.zero_le 1)
  object := fun h => Nat.le_of_eq (count_head h).2 |>.trans (Nat.zero_le 1)

/-- Asking for the head and then for what hangs on it is within the bounds. -/
theorem HeadAsks.bounded {run : Peer → Sys PullReport} {manifests : List Hash}
    {parts : List (List Hash × List Hash)} (hasks : HeadAsks run peer m manifests parts) :
    Bounded ([[OP_GET_HEAD]] ++
      (manifests.map manifestRequest ++ parts.flatMap batchRequests)) where
  length := by
    have hmanifests := hasks.manifests_le
    have hbatches := hasks.batches_le
    have hobjects := hasks.objects_le
    rw [List.length_append, List.length_append, length_requests, List.length_map,
      List.length_singleton]
    omega
  manifest := by
    intro h
    have hmap : (manifests.map manifestRequest).count (manifestRequest h) = manifests.count h :=
      List.count_map_of_injective manifests manifestRequest
        (fun a b hab => Subtype.ext (List.cons.inj hab).2) h
    rw [List.count_append, List.count_append, (count_head h).1, hmap, count_manifestRequest,
      Nat.zero_add, Nat.add_zero]
    exact List.nodup_iff_count_le_one.mp hasks.manifests_nodup h
  object := by
    intro h
    have hmap : (manifests.map manifestRequest).count (objectRequest h) = 0 := by
      rw [List.count_eq_zero]
      intro hmem
      obtain ⟨g, -, hg⟩ := List.mem_map.mp hmem
      exact absurd (List.cons.inj hg).1 (by decide)
    rw [List.count_append, List.count_append, (count_head h).2, hmap, count_objectRequest,
      Nat.zero_add, Nat.zero_add]
    exact List.nodup_iff_count_le_one.mp hasks.objects_nodup h

/-- **No peer keeps a pull going.**  Whatever a peer answers, and however it
chooses its answers from the requests so far, the pull asks at most for its
HEAD, for as many manifests and objects as the caps allow, and once a batch what
it has; and it asks for each manifest and each object at most once. -/
theorem pull_rounds (addr : Bytes) (peer : Peer) (m : Machine) :
    ∃ asked, Bounded asked ∧ Confined (fun p => pull X st addr p) peer [] asked m := by
  by_cases haddr : 58 ∉ addr
  · refine ⟨_, bounded_head, confined_of_free (fun p q => ?_) _⟩
    unfold pull
    rw [if_pos haddr, if_pos haddr]
  · have hask := exchange_asks peer m [] [OP_GET_HEAD]
    have hpull (p : Peer) : pull X st addr p m =
        ((look fun _ => exchange p [] [OP_GET_HEAD]) >>= fun resp =>
          if h : resp.length = 33 ∧ resp.head? = some 1 then
            pullHead X st addr p ⟨resp.tail, by rw [List.length_tail, h.1]⟩
          else if resp.head? = some 0 then pure ⟨none, 0, 0, 0⟩
          else throw (.sync (str "malformed HEAD response"))) m := by
      unfold pull
      rw [if_neg haddr]
    cases hanswer : exchange peer [] [OP_GET_HEAD] with
    | error e =>
        exact ⟨_, bounded_head,
          (hask.bind_error (look_eq_error.mpr ⟨hanswer, rfl⟩)).congr hpull⟩
    | ok resp =>
        have hlook : look (fun _ => exchange peer [] [OP_GET_HEAD]) m = .ok resp m :=
          look_eq_ok.mpr ⟨hanswer, rfl⟩
        by_cases hhash : resp.length = 33 ∧ resp.head? = some 1
        · obtain ⟨manifests, parts, hasks⟩ := pullHead_asks X st peer addr
            ⟨resp.tail, by rw [List.length_tail, hhash.1]⟩ m
          refine ⟨_, hasks.bounded, (hask.bind hlook (hasks.confined.congr
            fun p => ?_)).congr hpull⟩
          rw [dif_pos hhash]
        · refine ⟨[[OP_GET_HEAD]] ++ [], bounded_head,
            (hask.bind hlook (confined_of_free (fun p q => ?_) _)).congr hpull⟩
          rw [dif_neg hhash, dif_neg hhash]

end Sync

end Respawn
