import Respawn.Walk

/-!
# What the fetching of objects obtains

After its walk a pull asks, batch by batch, which objects the peer has, and
fetches those the store has not.  As for the walk, the conversation is followed
on the state it starts in: `fetchBatches_after` says that the store gains what
the steps of the conversation (`AskStep`) obtain.
-/

namespace Respawn

open ByteStr FileTree StateLogic

namespace Sync

variable (X : Crates) (st : Store)

def objectRequest (h : Hash) : Bytes := OP_GET_OBJECT :: h.val

/-- Where the conversation stands: the objects stored, last first, as they lie in
the store, the requests sent, the hashes of the batch with the peer's answers,
and the batches to come. -/
structure Asking where
  got : List (Hash × Bytes)
  sent : List Bytes
  todo : List (Hash × UInt8)
  later : List (List Hash)

/-- The conversation begins when the walk has ended. -/
def Asking.start (w : Walked) : Asking :=
  ⟨[], w.sent, [], batches HAVE_BATCH (sortDedup w.needed).length (sortDedup w.needed)⟩

/-- Something is left to ask for. -/
def Asking.Unfinished (a : Asking) : Prop := a.todo ≠ [] ∨ a.later ≠ []

/-- The object is in the store when the conversation comes to it. -/
def Asking.Here (fs : Fs) (a : Asking) (h : Hash) : Prop :=
  st.hasObject fs h = true ∨ h ∈ a.got.map Prod.fst

/-- The object is not here, there is room for it, and the peer delivers it.  The
next temporary name has the number `k` at the beginning of the conversation. -/
structure Asking.Obtains (peer : Peer) (fs : Fs) (pid k : Nat) (a : Asking) (h : Hash)
    (data : Bytes) : Prop where
  new : ¬ a.Here st fs h
  vacant : Store.Vacant fs pid (k + a.got.length) (st.objectPath h)
  delivers : Delivers X peer a.sent (objectRequest h) h data

/-- One step of the conversation: a HAVE exchange, a hash that is skipped, or an
object that is fetched. -/
inductive AskStep (peer : Peer) (fs : Fs) (pid k : Nat) : Asking → Asking → Prop
  | ask {a : Asking} {batch : List Hash} {rest : List (List Hash)} {offered : Bytes}
      (htodo : a.todo = []) (hlater : a.later = batch :: rest)
      (hanswer : exchange peer a.sent (haveRequest batch) = .ok offered)
      (hlen : offered.length = batch.length) :
      AskStep peer fs pid k a ⟨a.got, a.sent ++ [haveRequest batch], batch.zip offered, rest⟩
  | skip {a : Asking} {h : Hash} {offered : UInt8} {todo : List (Hash × UInt8)}
      (htodo : a.todo = (h, offered) :: todo) (hskip : offered ≠ 1 ∨ a.Here st fs h) :
      AskStep peer fs pid k a { a with todo := todo }
  | get {a : Asking} {h : Hash} {todo : List (Hash × UInt8)} {data : Bytes}
      (htodo : a.todo = (h, 1) :: todo) (hobtains : a.Obtains X st peer fs pid k h data) :
      AskStep peer fs pid k a
        { a with got := (h, X.zstdEncode data) :: a.got, sent := a.sent ++ [objectRequest h],
                 todo := todo }

variable {X st}

section AskStep

variable {peer : Peer} {fs : Fs} {pid k : Nat}

/-- A conversation has one way to go on. -/
theorem askStep_unique : Relator.RightUnique (AskStep X st peer fs pid k) := by
  intro a b c hb hc
  cases hb with
  | ask htodo hlater hanswer hlen =>
      cases hc with
      | ask htodo' hlater' hanswer' hlen' =>
          cases hlater.symm.trans hlater'
          cases hanswer.symm.trans hanswer'
          rfl
      | skip htodo' hskip => cases htodo.symm.trans htodo'
      | get htodo' hobtains => cases htodo.symm.trans htodo'
  | skip htodo hskip =>
      cases hc with
      | ask htodo' hlater' hanswer' hlen' => cases htodo.symm.trans htodo'
      | skip htodo' hskip' =>
          cases htodo.symm.trans htodo'
          rfl
      | get htodo' hobtains =>
          cases htodo.symm.trans htodo'
          rcases hskip with hne | hhere
          · exact absurd rfl hne
          · exact absurd hhere hobtains.new
  | get htodo hobtains =>
      cases hc with
      | ask htodo' hlater' hanswer' hlen' => cases htodo.symm.trans htodo'
      | skip htodo' hskip' =>
          cases htodo.symm.trans htodo'
          rcases hskip' with hne | hhere
          · exact absurd rfl hne
          · exact absurd hhere hobtains.new
      | get htodo' hobtains' =>
          cases htodo.symm.trans htodo'
          cases hobtains.delivers.unique hobtains'.delivers
          rfl

/-- What a conversation has obtained it keeps. -/
theorem got_mono {a b : Asking} (h : Relation.ReflTransGen (AskStep X st peer fs pid k) a b)
    {c : Hash} (hc : c ∈ a.got.map Prod.fst) : c ∈ b.got.map Prod.fst := by
  induction h with
  | refl => exact hc
  | tail _ hstep ih =>
      cases hstep with
      | ask _ _ _ _ => exact ih
      | skip _ _ => exact ih
      | get _ _ => exact List.mem_cons_of_mem _ ih

/-- The steps see nothing of the file system but objects and the way to them. -/
theorem AskStep.of_objects {fs' : Fs} {a b : Asking} (hreal : st.Real fs) (hreal' : st.Real fs')
    (hsame : ∀ q, Elsewhere st (str "manifests") q → fs'.get q = fs.get q)
    (h : AskStep X st peer fs pid k a b) : AskStep X st peer fs' pid k a b := by
  have hobject : ∀ g, Elsewhere st (str "manifests") (st.objectPath g) := fun g =>
    elsewhere_of_above (by decide) (kind_prefix_fanPath g)
  have hhere : ∀ (a : Asking) g, a.Here st fs' g ↔ a.Here st fs g := by
    intro a g
    have hin : st.fabricDir <+: st.objectPath g :=
      (Store.fabricDir_prefix_fanPath _ _).trans (List.dropLast_prefix _)
    have hnames : ∀ n ∈ st.objectPath g, ValidName n := Store.fanPath_names hreal (by decide) g
    unfold Asking.Here Store.hasObject
    rw [hreal.exists_iff hin hnames, hreal'.exists_iff hin hnames, hsame _ (hobject g)]
  cases h with
  | ask htodo hlater hanswer hlen => exact .ask htodo hlater hanswer hlen
  | skip htodo hskip =>
      refine .skip htodo ?_
      rcases hskip with hne | h
      · exact Or.inl hne
      · exact Or.inr ((hhere _ _).mpr h)
  | @get h todo data htodo hobtains =>
      refine .get htodo ⟨fun h => hobtains.new ((hhere _ _).mp h), ⟨?_, ?_, ?_⟩, hobtains.delivers⟩
      · rw [hsame _ (hobject _)]
        exact hobtains.vacant.absent
      · intro pre hpre
        rw [hsame pre ((hobject h).above (hpre.trans (List.dropLast_prefix _)))]
        exact hobtains.vacant.way pre hpre
      · rw [hsame _ ?_]
        · exact hobtains.vacant.tmp
        · apply elsewhere_of_above (n := str "objects") (by decide)
          unfold Store.objectPath
          rw [Store.fanPath_dropLast]
          exact ⟨[(hashHex h).take 2, _], by simp; rfl⟩

end AskStep

/-! ## Fetching -/

section Fetching

variable {peer : Peer} {m₀ m : Machine}

/-- A hash that is wanted and cannot be obtained ends the conversation. -/
theorem no_step_of_unobtained {a b : Asking} {h : Hash} {offered : UInt8}
    {todo : List (Hash × UInt8)} (htodo : a.todo = (h, offered) :: todo)
    (hwanted : ¬ (offered ≠ 1 ∨ a.Here st m₀.fs h))
    (hnone : ∀ data, ¬ a.Obtains X st peer m₀.fs m₀.pid m₀.tmpCounter h data) :
    ¬ AskStep X st peer m₀.fs m₀.pid m₀.tmpCounter a b := by
  intro hstep
  cases hstep with
  | ask htodo' _ _ _ => cases htodo.symm.trans htodo'
  | skip htodo' hskip =>
      cases htodo.symm.trans htodo'
      exact hwanted hskip
  | get htodo' hobtains =>
      cases htodo.symm.trans htodo'
      exact hnone _ hobtains

/-- One hash of a batch: it is skipped, or the object is stored, or the
conversation ends there. -/
theorem fetchObject_after {a : Asking} {h : Hash} {offered : UInt8} {f : Fetched}
    {todo : List (Hash × UInt8)} (hreal : st.Real m₀.fs) (hat : At st (str "objects") m₀ a.got m)
    (hsent : f.sent = a.sent) (htodo : a.todo = (h, offered) :: todo) :
    After (fetchObject X st peer f h offered m)
      (fun f' m' => ∃ b, AskStep X st peer m₀.fs m₀.pid m₀.tmpCounter a b ∧ b.todo = todo ∧
        b.later = a.later ∧ f'.sent = b.sent ∧ At st (str "objects") m₀ b.got m')
      (fun _ m' => (∀ b, ¬ AskStep X st peer m₀.fs m₀.pid m₀.tmpCounter a b) ∧
        Added st (str "objects") a.got m₀.fs m'.fs) := by
  have hhere : st.hasObject m.fs h = true ↔ a.Here st m₀.fs h :=
    hat.gained.exists_iff hreal (by decide) h
  have hadded := hat.gained.added hreal
  unfold fetchObject
  rw [bind_apply, look_get]
  simp only
  split
  case isFalse hskip =>
    have hskip' : offered ≠ 1 ∨ a.Here st m₀.fs h := by
      rw [← hhere]
      by_contra hwanted
      push Not at hwanted
      exact hskip ⟨hwanted.1, by simpa using hwanted.2⟩
    exact ⟨_, .skip htodo hskip', rfl, rfl, hsent, hat⟩
  case isTrue hwant =>
    obtain ⟨hone, hmissing⟩ := hwant
    have hnew : ¬ a.Here st m₀.fs h := fun hh => by
      rw [hhere.mpr hh] at hmissing
      exact absurd hmissing (by simp)
    have hstop : (∀ data, ¬ a.Obtains X st peer m₀.fs m₀.pid m₀.tmpCounter h data) →
        ∀ b, ¬ AskStep X st peer m₀.fs m₀.pid m₀.tmpCounter a b := fun hnone _ =>
      no_step_of_unobtained htodo (not_or.mpr ⟨not_not.mpr hone, hnew⟩) hnone
    rw [hsent]
    apply after_look_bind
    · intro resp hresp
      apply after_look_bind
      · intro data hdata
        have hunique : ∀ data', a.Obtains X st peer m₀.fs m₀.pid m₀.tmpCounter h data' →
            data' = data := by
          intro data' hobtains
          obtain ⟨resp', hresp', hdata'⟩ := hobtains.delivers.answer
          cases hresp.symm.trans hresp'
          exact Except.ok.inj (hdata'.symm.trans hdata)
        split
        case isTrue hempty =>
          refine ⟨hstop fun data' hobtains => ?_, hadded⟩
          exact hobtains.delivers.nonempty (hunique data' hobtains ▸ hempty)
        case isFalse hfull =>
          by_cases hhash : X.blake3 data = h
          · have hdelivers : Delivers X peer a.sent (objectRequest h) h data :=
              ⟨⟨resp, hresp, hdata⟩, hfull, hhash⟩
            unfold Store.putObjectAs Store.putObject
            rw [if_neg (not_not.mpr hhash), hhash]
            have hput : After (Store.putBlob (st.objectPath h) (X.zstdEncode data) m) _ _ :=
              hat.putBlob hreal (by decide) hnew
            cases hcase : Store.putBlob (st.objectPath h) (X.zstdEncode data) m with
            | ok u m' =>
                rw [hcase] at hput
                simp only [bind_apply, hcase, pure_apply]
                exact ⟨_, .get (hone ▸ htodo) ⟨hnew, hput.1, hdelivers⟩, rfl, rfl, rfl, hput.2⟩
            | error e m' =>
                rw [hcase] at hput
                simp only [bind_apply, hcase]
                refine ⟨hstop fun data' hobtains => ?_, hput.2⟩
                exact hput.1 hobtains.vacant
          · unfold Store.putObjectAs
            rw [if_pos hhash]
            refine ⟨hstop fun data' hobtains => ?_, hadded⟩
            exact hhash (hunique data' hobtains ▸ hobtains.delivers.hash)
      · intro e he
        refine ⟨hstop fun data' hobtains => ?_, hadded⟩
        obtain ⟨resp', hresp', hdata'⟩ := hobtains.delivers.answer
        cases hresp.symm.trans hresp'
        rw [he] at hdata'
        cases hdata'
    · intro e he
      refine ⟨hstop fun data' hobtains => ?_, hadded⟩
      obtain ⟨resp', hresp', _⟩ := hobtains.delivers.answer
      unfold objectRequest at hresp'
      rw [he] at hresp'
      cases hresp'

/-- The hashes of a batch. -/
theorem fetchObjects_after {todo : List (Hash × UInt8)} {a : Asking} {f : Fetched}
    (hreal : st.Real m₀.fs) (hat : At st (str "objects") m₀ a.got m) (hsent : f.sent = a.sent)
    (htodo : a.todo = todo) :
    After (fetchObjects X st peer todo f m)
      (fun f' m' => ∃ b,
        Relation.ReflTransGen (AskStep X st peer m₀.fs m₀.pid m₀.tmpCounter) a b ∧
        b.todo = [] ∧ b.later = a.later ∧ f'.sent = b.sent ∧ At st (str "objects") m₀ b.got m')
      (fun _ m' => ∃ b,
        Relation.ReflTransGen (AskStep X st peer m₀.fs m₀.pid m₀.tmpCounter) a b ∧
        (∀ c, ¬ AskStep X st peer m₀.fs m₀.pid m₀.tmpCounter b c) ∧ b.Unfinished ∧
        Added st (str "objects") b.got m₀.fs m'.fs) := by
  induction todo generalizing a f m with
  | nil => exact ⟨a, .refl, htodo, rfl, hsent, hat⟩
  | cons e rest ih =>
      obtain ⟨h, offered⟩ := e
      unfold fetchObjects
      apply After.bind ((fetchObject_after hreal hat hsent htodo).mono (fun _ _ h => h) ?_)
      · intro f' m' hstep
        obtain ⟨b, hstep, htodo', hlater, hsent', hat'⟩ := hstep
        apply (ih hat' hsent' htodo').mono
        · intro f'' m'' hend
          obtain ⟨c, hsteps, hdone, hlater', hsent'', hat''⟩ := hend
          exact ⟨c, .head hstep hsteps, hdone, hlater'.trans hlater, hsent'', hat''⟩
        · intro _ m'' hend
          obtain ⟨c, hsteps, hend⟩ := hend
          exact ⟨c, .head hstep hsteps, hend⟩
      · intro _ m' hend
        exact ⟨a, .refl, hend.1, Or.inl (by simp [htodo]), hend.2⟩

/-- **The store gains what the conversation obtains**, however it ends. -/
theorem fetchBatches_after {later : List (List Hash)} {a : Asking} {f : Fetched}
    (hreal : st.Real m₀.fs) (hat : At st (str "objects") m₀ a.got m) (hsent : f.sent = a.sent)
    (htodo : a.todo = []) (hlater : a.later = later) :
    After (fetchBatches X st peer later f m)
      (fun _ m' => ∃ b,
        Relation.ReflTransGen (AskStep X st peer m₀.fs m₀.pid m₀.tmpCounter) a b ∧
        b.todo = [] ∧ b.later = [] ∧ Added st (str "objects") b.got m₀.fs m'.fs)
      (fun _ m' => ∃ b,
        Relation.ReflTransGen (AskStep X st peer m₀.fs m₀.pid m₀.tmpCounter) a b ∧
        (∀ c, ¬ AskStep X st peer m₀.fs m₀.pid m₀.tmpCounter b c) ∧ b.Unfinished ∧
        Added st (str "objects") b.got m₀.fs m'.fs) := by
  induction later generalizing a f m with
  | nil => exact ⟨a, .refl, htodo, hlater, hat.gained.added hreal⟩
  | cons batch rest ih =>
      have hadded := hat.gained.added hreal
      have hmore : a.Unfinished := Or.inr (by simp [hlater])
      have hstuck : (∀ offered, exchange peer a.sent (haveRequest batch) = .ok offered →
          offered.length ≠ batch.length) →
          ∀ c, ¬ AskStep X st peer m₀.fs m₀.pid m₀.tmpCounter a c := by
        intro hbad c hstep
        cases hstep with
        | ask _ hlater' hanswer hlen =>
            cases hlater.symm.trans hlater'
            exact hbad _ hanswer hlen
        | skip htodo' _ => cases htodo.symm.trans htodo'
        | get htodo' _ => cases htodo.symm.trans htodo'
      unfold fetchBatches
      rw [hsent]
      apply after_look_bind
      · intro offered hoffered
        split
        case isTrue hlen =>
          refine ⟨a, .refl, hstuck ?_, hmore, hadded⟩
          intro offered' hoffered'
          cases hoffered.symm.trans hoffered'
          exact hlen
        case isFalse hlen =>
          have hstep : AskStep X st peer m₀.fs m₀.pid m₀.tmpCounter a
              ⟨a.got, a.sent ++ [haveRequest batch], batch.zip offered, rest⟩ :=
            .ask htodo hlater hoffered (not_not.mp hlen)
          apply After.bind ((fetchObjects_after (a := ⟨a.got, _, _, rest⟩) hreal hat rfl rfl).mono
            (fun _ _ h => h) ?_)
          · intro f' m' hend
            obtain ⟨b, hsteps, hdone, hlater', hsent', hat'⟩ := hend
            apply (ih hat' hsent' hdone hlater').mono
            · intro _ m'' hend
              obtain ⟨c, hsteps', hend⟩ := hend
              exact ⟨c, .head hstep (hsteps.trans hsteps'), hend⟩
            · intro _ m'' hend
              obtain ⟨c, hsteps', hend⟩ := hend
              exact ⟨c, .head hstep (hsteps.trans hsteps'), hend⟩
          · intro _ m' hend
            obtain ⟨b, hsteps, hend⟩ := hend
            exact ⟨b, .head hstep hsteps, hend⟩
      · intro e he
        refine ⟨a, .refl, hstuck ?_, hmore, hadded⟩
        intro offered hoffered
        rw [he] at hoffered
        cases hoffered

end Fetching

/-- What a pull from `m` to `m'` did after its walk had stored these manifests:
the conversation with the peer ended at `b`, and the objects there are now are
the old ones and those it obtained. -/
structure Supplied (X : Crates) (st : Store) (peer : Peer) (m m' : Machine) (w : Walked)
    (stored : List (Hash × Bytes)) (b : Asking) : Prop where
  asks : Relation.ReflTransGen
    (AskStep X st peer m.fs m.pid (m.tmpCounter + stored.length)) (Asking.start w) b
  ends : ∀ c, ¬ AskStep X st peer m.fs m.pid (m.tmpCounter + stored.length) b c
  objects : ∀ g, st.hasObject m'.fs g = true ↔
    st.hasObject m.fs g = true ∨ g ∈ b.got.map Prod.fst

theorem hasObject_iff {fs : Fs} (hreal : st.Real fs) (g : Hash) :
    st.hasObject fs g = true ↔ fs.get (st.objectPath g) ≠ none :=
  hreal.exists_iff ((Store.fabricDir_prefix_fanPath _ _).trans (List.dropLast_prefix _))
    (Store.fanPath_names hreal (by decide) g)

/-- After the walk a pull goes on without objects of its own, so the
conversation may be followed from where the pull began. -/
theorem supplied_of_fetch {peer : Peer} {m m₁ m' : Machine} {w : Walked}
    {stored : List (Hash × Bytes)} {b : Asking} (hreal : st.Real m.fs)
    (hat : At st (str "manifests") m stored m₁)
    (hasks : Relation.ReflTransGen (AskStep X st peer m₁.fs m₁.pid m₁.tmpCounter)
      (Asking.start w) b)
    (hends : ∀ c, ¬ AskStep X st peer m₁.fs m₁.pid m₁.tmpCounter b c)
    (hadded : Added st (str "objects") b.got m₁.fs m'.fs) :
    Supplied X st peer m m' w stored b := by
  have hsame : ∀ q, Elsewhere st (str "manifests") q → m₁.fs.get q = m.fs.get q :=
    (hat.gained.added hreal).outside
  rw [hat.pid, hat.counter] at hasks hends
  refine ⟨?_, ?_, ?_⟩
  · refine Relation.ReflTransGen.mono ?_ _ _ hasks
    intro _ _ hstep
    exact hstep.of_objects hat.gained.real hreal fun q hq => (hsame q hq).symm
  · intro c hstep
    exact hends c (hstep.of_objects hreal hat.gained.real hsame)
  · intro g
    have hobject : m₁.fs.get (st.objectPath g) = m.fs.get (st.objectPath g) :=
      hsame _ (elsewhere_of_above (by decide) (kind_prefix_fanPath g))
    rw [hasObject_iff hadded.real, hasObject_iff hreal]
    by_cases hmem : g ∈ b.got.map Prod.fst
    · obtain ⟨e, he, rfl⟩ := List.mem_map.mp hmem
      obtain ⟨d, hd, _⟩ := hadded.stored e he
      have hsome : m'.fs.get (st.objectPath e.1) ≠ none := by
        intro hnone
        cases hnone.symm.trans hd
      exact iff_of_true hsome (Or.inr hmem)
    · have hold : m'.fs.get (st.objectPath g) = m₁.fs.get (st.objectPath g) :=
        hadded.old g fun e he heq => hmem (heq ▸ List.mem_map_of_mem he)
      rw [hold, hobject]
      simp [hmem]

/-- What is supplied does not depend on other parts of the fabric. -/
theorem Supplied.later {peer : Peer} {m m₁ m' : Machine} {w : Walked}
    {stored : List (Hash × Bytes)} {b : Asking} (h : Supplied X st peer m m₁ w stored b)
    (hreal : st.Real m₁.fs) (hlater : st.Touched (Elsewhere st (str "objects")) m₁.fs m'.fs) :
    Supplied X st peer m m' w stored b := by
  refine ⟨h.asks, h.ends, ?_⟩
  intro g
  have hobject : m'.fs.get (st.objectPath g) = m₁.fs.get (st.objectPath g) :=
    hlater.frame _ (not_not.mpr (kind_prefix_fanPath g))
  rw [← h.objects g, hasObject_iff hlater.real, hasObject_iff hreal, hobject]

/-- What any part of the conversation obtains is here after the pull. -/
theorem Supplied.obtained {peer : Peer} {m m' : Machine} {w : Walked}
    {stored : List (Hash × Bytes)} {a b : Asking} (h : Supplied X st peer m m' w stored b)
    (hasks : Relation.ReflTransGen
      (AskStep X st peer m.fs m.pid (m.tmpCounter + stored.length)) (Asking.start w) a)
    {g : Hash} (hg : g ∈ a.got.map Prod.fst) : st.hasObject m'.fs g = true := by
  apply (h.objects g).mpr
  right
  rcases Relation.ReflTransGen.total_of_right_unique askStep_unique hasks h.asks with hto | hto
  · exact got_mono hto hg
  · rcases Relation.ReflTransGen.cases_head hto with heq | ⟨c, hstep, _⟩
    · rw [heq]
      exact hg
    · exact absurd hstep (h.ends c)

end Sync

end Respawn
