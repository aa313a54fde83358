import Mathlib.Data.List.Chain
import Mathlib.Data.List.Induction
import Mathlib.Data.Set.Defs

/-!
# Hash chains

A chain is a list of entries, each carrying its number, the hash of the entry
before it and its own hash, which is a digest of the rest of the entry.  Where
the digest binds the entries concerned, the last hash determines the whole
chain (`Linked.unique`): the argument runs backwards, each entry's digest
fixing the hash of the one before.

A series of entries taken from a list, each a successor of the one before it,
is a piece of the list where successors are neighbours (`infix_of_isChain`).

Documents that each carry the name of the one before are all different, where
the name determines the document, so that what a document carries tells its
place (`Carried.carries_iff`).
-/

namespace HashChain

/-- How entries of a chain carry their links. -/
structure Linking (E H : Type) where
  seq : E → Nat
  prev : E → H
  hash : E → H
  digest : E → H

variable {E H : Type} (L : Linking E H)

/-- The entries continue a chain that has reached number `k` and hash `h`. -/
def Linked : Nat → H → List E → Prop
  | _, _, [] => True
  | k, h, e :: rest =>
      (L.seq e = k ∧ L.prev e = h ∧ L.hash e = L.digest e) ∧ Linked (k + 1) (L.hash e) rest

/-- The hash a chain from `h` has reached. -/
def lastHash (h : H) : List E → H
  | [] => h
  | e :: rest => lastHash (L.hash e) rest

variable {L}

/-- The last hash of a chain is that of its last entry. -/
@[simp] theorem lastHash_concat (h : H) (es : List E) (e : E) :
    lastHash L h (es ++ [e]) = L.hash e := by
  induction es generalizing h with
  | nil => rfl
  | cons a es ih => exact ih (L.hash a)

/-- A chain grows by an entry that is linked to its end. -/
theorem linked_concat {k : Nat} {h : H} {es : List E} {e : E} :
    Linked L k h (es ++ [e]) ↔
      Linked L k h es ∧ L.seq e = k + es.length ∧ L.prev e = lastHash L h es ∧
        L.hash e = L.digest e := by
  induction es generalizing k h with
  | nil => simp [Linked, lastHash]
  | cons a es ih =>
      have hlen : k + 1 + es.length = k + (a :: es).length := by
        rw [List.length_cons]
        omega
      simp only [List.cons_append, Linked, lastHash, ih, hlen, and_assoc]

/-- The beginning of a chain is a chain. -/
theorem Linked.of_append {k : Nat} {h : H} {es fs : List E} (hlinked : Linked L k h (es ++ fs)) :
    Linked L k h es := by
  induction es generalizing k h with
  | nil => trivial
  | cons e es ih => exact ⟨hlinked.1, ih hlinked.2⟩

/-- The digest of a set of entries determines the entry, given that it is the
entry's hash. -/
def Binds (L : Linking E H) (S : Set E) : Prop :=
  ∀ e ∈ S, ∀ f ∈ S, L.hash e = L.digest e → L.hash f = L.digest f → L.hash e = L.hash f → e = f

/-- **The last hash pins the chain.**  Two chains of one length from the same
start that reach the same hash are the same, where the digest binds. -/
theorem Linked.unique {S : Set E} (hbinds : Binds L S) {k : Nat} {h : H} {es fs : List E}
    (hes : Linked L k h es) (hfs : Linked L k h fs) (hlen : es.length = fs.length)
    (hS : ∀ e ∈ es, e ∈ S) (hS' : ∀ f ∈ fs, f ∈ S)
    (hlast : lastHash L h es = lastHash L h fs) : es = fs := by
  induction es using List.reverseRecOn generalizing fs with
  | nil => exact (List.length_eq_zero_iff.mp hlen.symm).symm
  | append_singleton es e ih =>
      obtain ⟨fs, f, rfl⟩ : ∃ gs g, fs = gs ++ [g] := by
        rcases List.eq_nil_or_concat fs with hnil | ⟨gs, g, hg⟩
        · simp [hnil] at hlen
        · exact ⟨gs, g, by rw [hg, List.concat_eq_append]⟩
      obtain ⟨hes, _, hprev, hhash⟩ := linked_concat.mp hes
      obtain ⟨hfs, _, hprev', hhash'⟩ := linked_concat.mp hfs
      have heq : e = f := by
        apply hbinds e (hS e (by simp)) f (hS' f (by simp)) hhash hhash'
        simpa using hlast
      have hbefore : lastHash L h es = lastHash L h fs := by
        rw [← hprev, ← hprev', heq]
      have hinit : es = fs := by
        apply ih hes hfs (by simpa using hlen) _ _ hbefore
        · intro a ha
          exact hS a (List.mem_append_left _ ha)
        · intro a ha
          exact hS' a (List.mem_append_left _ ha)
      rw [heq, hinit]

/-! ## Series taken from a list -/

/-- **A series of links skips nothing.**  Let every member of `minted` be the
successor, by the relation `R`, of nothing in `minted` but the member just
before it.  A series of members in which each is the successor of the one
before it is then a piece of `minted`. -/
theorem infix_of_isChain {B : Type} {R : B → B → Prop} {minted series : List B}
    (hR : ∀ k b c, minted[k]? = some c → b ∈ minted → R b c →
      ∃ j, k = j + 1 ∧ minted[j]? = some b)
    (hmem : ∀ b ∈ series, b ∈ minted) (hchain : series.IsChain R) : series <:+: minted := by
  -- a series that ends in the member number `k` is the end of the first `k + 1`
  have hend : ∀ (s : List B) (c : B) (k : Nat), (∀ b ∈ s, b ∈ minted) → (s ++ [c]).IsChain R →
      minted[k]? = some c → s ++ [c] <:+ minted.take (k + 1) := by
    intro s
    induction s using List.reverseRecOn with
    | nil =>
        intro c k _ _ hk
        rw [List.take_add_one, hk]
        exact List.suffix_append _ _
    | append_singleton s b ih =>
        intro c k hs hlinked hk
        obtain ⟨hinit, _, hlast⟩ := List.isChain_append.mp hlinked
        have hbc : R b c := hlast b (by simp) c (by simp)
        have hb : b ∈ minted := hs b (by simp)
        obtain ⟨j, rfl, hj⟩ := hR k b c hk hb hbc
        have hbefore := ih b j (fun a ha => hs a (List.mem_append_left _ ha)) hinit hj
        obtain ⟨front, hfront⟩ := hbefore
        refine ⟨front, ?_⟩
        rw [List.take_add_one, hk, ← hfront]
        simp
  rcases List.eq_nil_or_concat series with rfl | ⟨s, c, rfl⟩
  · exact List.nil_infix
  · rw [List.concat_eq_append] at hmem hchain ⊢
    obtain ⟨k, hk⟩ := List.getElem?_of_mem (hmem c (by simp))
    have hsuffix := hend s c k (fun b hb => hmem b (List.mem_append_left _ hb)) hchain hk
    exact hsuffix.isInfix.trans (List.take_prefix _ _).isInfix

/-! ## Names carried on -/

section Carried

variable {B N : Type} {name : B → N} {carries : B → Option N} {docs : List B}

/-- Every document carries the name of the one before it, and the first none. -/
def Carried (name : B → N) (carries : B → Option N) (docs : List B) : Prop :=
  ∀ k c, docs[k]? = some c → carries c = (docs.take k).getLast?.map name

/-- A document that carries the name of the last one can be added. -/
theorem Carried.concat {c : B} (h : Carried name carries docs)
    (hc : carries c = docs.getLast?.map name) : Carried name carries (docs ++ [c]) := by
  intro k d hk
  rcases Nat.lt_or_ge k docs.length with hlt | hge
  · rw [List.getElem?_append_left hlt] at hk
    rw [List.take_append_of_le_length (Nat.le_of_lt hlt)]
    exact h k d hk
  · obtain rfl : k = docs.length := by
      have hlast := (List.getElem?_eq_some_iff.mp hk).1
      rw [List.length_append, List.length_singleton] at hlast
      omega
    rw [List.getElem?_concat_length] at hk
    rw [List.take_left, ← Option.some.inj hk]
    exact hc

theorem Carried.first {c : B} (h : Carried name carries docs) (hc : docs[0]? = some c) :
    carries c = none := h 0 c hc

theorem Carried.later {k : Nat} {b c : B} (h : Carried name carries docs) (hb : docs[k]? = some b)
    (hc : docs[k + 1]? = some c) : carries c = some (name b) := by
  rw [h (k + 1) c hc, List.take_add_one, hb]
  simp

/-- What the members of a list carry, their documents carry. -/
theorem Carried.map {D : Type} {f : D → B} {held : D → Option N} {members : List D}
    (h : Carried (name ∘ f) held members) (hf : ∀ d ∈ members, carries (f d) = held d) :
    Carried name carries (members.map f) := by
  intro k c hk
  rw [List.getElem?_map] at hk
  obtain ⟨d, hd, rfl⟩ := Option.map_eq_some_iff.mp hk
  rw [hf d (List.mem_of_getElem? hd), h k d hd, ← List.map_take, List.getLast?_map, Option.map_map]

/-- **No document comes twice.** -/
theorem Carried.index_unique {i j : Nat} {b : B} (h : Carried name carries docs)
    (hname : ∀ b ∈ docs, ∀ c ∈ docs, name b = name c → b = c) (hi : docs[i]? = some b)
    (hj : docs[j]? = some b) : i = j := by
  have hbefore : ∀ {k c}, docs[k + 1]? = some c → ∃ d, docs[k]? = some d := by
    intro k c hk
    have hlt := (List.getElem?_eq_some_iff.mp hk).1
    exact ⟨_, List.getElem?_eq_getElem (Nat.lt_of_succ_lt hlt)⟩
  induction i generalizing j b with
  | zero =>
      cases j with
      | zero => rfl
      | succ j =>
          obtain ⟨d, hd⟩ := hbefore hj
          have hnone := h.first hi
          rw [h.later hd hj] at hnone
          cases hnone
  | succ i ih =>
      obtain ⟨c, hc⟩ := hbefore hi
      cases j with
      | zero =>
          have hnone := h.first hj
          rw [h.later hc hi] at hnone
          cases hnone
      | succ j =>
          obtain ⟨d, hd⟩ := hbefore hj
          have hnames := Option.some.inj ((h.later hc hi).symm.trans (h.later hd hj))
          have hcd := hname c (List.mem_of_getElem? hc) d (List.mem_of_getElem? hd) hnames
          rw [ih hc (hcd ▸ hd)]

/-- **What a document carries tells its place.** -/
theorem Carried.carries_iff {i j : Nat} {b c : B} (h : Carried name carries docs)
    (hname : ∀ b ∈ docs, ∀ c ∈ docs, name b = name c → b = c) (hb : docs[i]? = some b)
    (hc : docs[j]? = some c) : carries c = some (name b) ↔ j = i + 1 := by
  constructor
  · intro hcarries
    cases j with
    | zero =>
        rw [h.first hc] at hcarries
        cases hcarries
    | succ j =>
        have hlt := (List.getElem?_eq_some_iff.mp hc).1
        have hd := List.getElem?_eq_getElem (Nat.lt_of_succ_lt hlt)
        rw [h.later hd hc] at hcarries
        have hdb := hname _ (List.mem_of_getElem? hd) b (List.mem_of_getElem? hb)
          (Option.some.inj hcarries)
        rw [h.index_unique hname hb (hdb ▸ hd)]
  · rintro rfl
    exact h.later hb hc

end Carried

end HashChain
