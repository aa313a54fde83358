import Mathlib.Data.List.AList
import Mathlib.Data.List.Sort
import Respawn.ByteStr

/-!
# File trees

A file system as a finite map from physical paths to nodes.  A physical path
is the list of names from the root down, so `[]` is the root directory; the
map never holds a name without its parent directory, and no name is empty,
`.`, `..` or contains a separator.  Both facts are fields of `Fs`, so every
operation below keeps them by construction.  Some directories may be sealed:
who asks for their entries is refused, though what lies below can be reached
by its name.

`resolve` is the kernel's path resolution: it walks the components of a given
path, follows the symbolic links it meets and yields the physical path the
components denote.  Where no link stands above the last component the walk is
the identity (`resolve_of_parent`, `resolve_eq_self`); that is how the code
that refuses to pass through links is shown to stay where it thinks it is.
-/

namespace FileTree

open ByteStr

/-- The name of a directory entry. -/
abbrev Name := Bytes

/-- A path from the root, component by component. -/
abbrev Path := List Name

/-- `.` -/
abbrev dot : Name := [46]

/-- `..` -/
abbrev dotdot : Name := [46, 46]

/-- What can be the name of a directory entry. -/
def ValidName (n : Name) : Prop :=
  n ≠ [] ∧ n ≠ dot ∧ n ≠ dotdot ∧ slash ∉ n ∧ 0 ∉ n

instance (n : Name) : Decidable (ValidName n) := by
  unfold ValidName; infer_instance

/-- A regular file: its content, its permission bits and the time of its last
modification in nanoseconds since 1970. -/
structure FileData where
  bytes : Bytes
  mode : Nat
  mtime : Int
  deriving DecidableEq, Repr

/-- A node of the tree. -/
inductive Node
  | dir
  | file (data : FileData)
  | symlink (target : Bytes)
  deriving DecidableEq, Repr

/-- Why a system call fails. -/
inductive Errno
  | notFound
  | alreadyExists
  | notADirectory
  | isADirectory
  | directoryNotEmpty
  | filesystemLoop
  | invalidInput
  | invalidData
  | other
  deriving DecidableEq, Repr

/-- A file system, and the directories in it whose entries may not be listed. -/
structure Fs where
  nodes : AList fun _ : Path => Node
  root : nodes.lookup [] = some .dir
  parents : ∀ p n, p ++ [n] ∈ nodes → nodes.lookup p = some .dir
  names : ∀ p ∈ nodes, ∀ n ∈ p, ValidName n
  sealed : List Path
  sealed_dir : ∀ p ∈ sealed, nodes.lookup p = some .dir

namespace Fs

/-- The file system that holds nothing but its root. -/
def empty : Fs where
  nodes := AList.singleton [] .dir
  root := rfl
  parents := by
    intro p n hmem
    rw [AList.mem_keys, AList.keys_singleton] at hmem
    simp at hmem
  names := by
    intro p hmem n hn
    rw [AList.mem_keys, AList.keys_singleton] at hmem
    simp [List.mem_singleton.mp hmem] at hn
  sealed := []
  sealed_dir := by simp

variable (fs : Fs)

/-- The node at a physical path. -/
def get (p : Path) : Option Node := fs.nodes.lookup p

/-- The file or link at a physical path; directories do not count. -/
def leaf (p : Path) : Option Node :=
  match fs.get p with
  | some .dir => none
  | other => other

@[simp] theorem get_root : fs.get [] = some .dir := fs.root

theorem mem_nodes {p : Path} {x : Node} (h : fs.get p = some x) : p ∈ fs.nodes :=
  AList.lookup_isSome.mp (by rw [show fs.nodes.lookup p = some x from h]; rfl)

theorem mem_keys {p : Path} {x : Node} (h : fs.get p = some x) : p ∈ fs.nodes.keys :=
  AList.mem_keys.mpr (fs.mem_nodes h)

theorem valid_of_get {p : Path} {x : Node} (h : fs.get p = some x) {n : Name}
    (hn : n ∈ p) : ValidName n :=
  fs.names p (fs.mem_nodes h) n hn

/-- Whatever stands under a path has a directory there. -/
theorem get_of_append {p q : Path} {x : Node} (h : fs.get (p ++ q) = some x)
    (hq : q ≠ []) : fs.get p = some .dir := by
  induction q using List.reverseRecOn generalizing x with
  | nil => exact absurd rfl hq
  | append_singleton q n ih =>
      rw [← List.append_assoc] at h
      have hdir : fs.get (p ++ q) = some .dir := fs.parents _ _ (fs.mem_nodes h)
      by_cases hq' : q = []
      · simpa [hq'] using hdir
      · exact ih hdir hq'

/-- Above a node there are directories. -/
theorem get_of_prefix {p q : Path} {x : Node} (h : fs.get p = some x)
    (hpre : q <+: p) (hne : q ≠ p) : fs.get q = some .dir := by
  obtain ⟨t, rfl⟩ := hpre
  apply fs.get_of_append h
  intro ht
  exact hne (by simp [ht])

/-- Every ancestor of a directory is a directory. -/
theorem dir_of_prefix {fs : Fs} {p q : Path} (h : fs.get p = some .dir) (hpre : q <+: p) :
    fs.get q = some .dir := by
  by_cases heq : q = p
  · rw [heq, h]
  · exact fs.get_of_prefix h hpre heq

/-- Nothing stands under a path that holds no directory. -/
theorem get_append_eq_none {p q : Path} (h : fs.get p ≠ some .dir) (hq : q ≠ []) :
    fs.get (p ++ q) = none := by
  cases hx : fs.get (p ++ q) with
  | none => rfl
  | some x => exact absurd (fs.get_of_append hx hq) h

theorem get_dropLast {p : Path} {x : Node} (h : fs.get p = some x) (hp : p ≠ []) :
    fs.get p.dropLast = some .dir := by
  apply fs.get_of_append (q := [p.getLast hp]) (x := x) _ (by simp)
  rwa [List.dropLast_append_getLast hp]

/-- The leaves are the files and links. -/
@[simp] theorem leaf_eq_some {p : Path} {x : Node} :
    fs.leaf p = some x ↔ fs.get p = some x ∧ x ≠ .dir := by
  unfold leaf
  cases h : fs.get p with
  | none => simp
  | some y => cases y <;> simp <;> grind

/-- No leaf is where nothing is, or a directory. -/
theorem leaf_eq_none {p : Path} :
    fs.leaf p = none ↔ fs.get p = none ∨ fs.get p = some .dir := by
  unfold leaf
  cases h : fs.get p with
  | none => simp
  | some y => cases y <;> simp

/-- The contents of the files there are. -/
def contents : List Bytes :=
  fs.nodes.keys.filterMap fun k => match fs.get k with
    | some (.file d) => some d.bytes
    | _ => none

theorem mem_contents {p : Path} {d : FileData} (h : fs.get p = some (.file d)) :
    d.bytes ∈ fs.contents :=
  List.mem_filterMap.mpr ⟨p, fs.mem_keys h, by simp only [h]⟩

/-! ## Changing one node -/

/-- A node may be placed at `p`: the parent is a directory, the name is
proper, and no directory is overwritten. -/
def Room (p : Path) : Prop :=
  p ≠ [] ∧ fs.get p.dropLast = some .dir ∧ fs.get p ≠ some .dir ∧
    ∀ n ∈ p.getLast?, ValidName n

instance (p : Path) : Decidable (fs.Room p) := by
  unfold Room; infer_instance

/-- A node with nothing under it, other than the root. -/
def Bare (p : Path) : Prop :=
  p ≠ [] ∧ ∀ k ∈ fs.nodes.keys, k ≠ [] → k.dropLast ≠ p

instance (p : Path) : Decidable (fs.Bare p) := by
  unfold Bare; infer_instance

/-- Place a node. -/
def put (p : Path) (x : Node) : Fs :=
  if h : fs.Room p then
    { nodes := fs.nodes.insert p x
      root := by
        rw [AList.lookup_insert_ne (Ne.symm h.1)]
        exact fs.root
      parents := by
        intro q n hmem
        have hq : fs.nodes.lookup q = some .dir := by
          rcases (AList.mem_insert _).mp hmem with heq | hold
          · have := h.2.1
            rw [← heq, List.dropLast_concat] at this
            exact this
          · exact fs.parents q n hold
        rw [AList.lookup_insert_ne]
        · exact hq
        · intro heq
          exact h.2.2.1 (heq ▸ hq)
      names := by
        intro q hq n hn
        rcases (AList.mem_insert _).mp hq with rfl | hold
        · rw [← List.dropLast_append_getLast h.1] at hn
          rcases List.mem_append.mp hn with hinit | hlast
          · exact fs.valid_of_get h.2.1 hinit
          · refine h.2.2.2 n ?_
            rw [List.getLast?_eq_some_getLast h.1, List.mem_singleton.mp hlast]
            rfl
        · exact fs.names q hold n hn
      sealed := fs.sealed
      sealed_dir := by
        intro q hq
        have hdir := fs.sealed_dir q hq
        rw [AList.lookup_insert_ne]
        · exact hdir
        · intro heq
          exact h.2.2.1 (heq ▸ hdir) }
  else fs

/-- Take a node away. -/
def remove (p : Path) : Fs :=
  if h : fs.Bare p then
    { nodes := fs.nodes.erase p
      root := by
        rw [AList.lookup_erase_ne (Ne.symm h.1)]
        exact fs.root
      parents := by
        intro q n hmem
        rw [AList.mem_erase] at hmem
        have hne : q ≠ p := fun heq =>
          h.2 (q ++ [n]) (AList.mem_keys.mpr hmem.2) (by simp) (by simpa using heq)
        rw [AList.lookup_erase_ne hne]
        exact fs.parents q n hmem.2
      names := fun q hq => fs.names q (AList.mem_erase.mp hq).2
      sealed := fs.sealed.filter (· ≠ p)
      sealed_dir := by
        intro q hq
        obtain ⟨hold, hne⟩ := List.mem_filter.mp hq
        rw [AList.lookup_erase_ne (of_decide_eq_true hne)]
        exact fs.sealed_dir q hold }
  else fs

/-- Refuse to list a directory from now on. -/
def sealDir (p : Path) : Fs :=
  if h : fs.nodes.lookup p = some .dir then
    { fs with
      sealed := p :: fs.sealed
      sealed_dir := by
        intro q hq
        rcases List.mem_cons.mp hq with rfl | hold
        · exact h
        · exact fs.sealed_dir q hold }
  else fs

/-- Place several nodes, parents first. -/
def build (nodes : List (Path × Node)) : Fs :=
  nodes.foldl (fun fs n => fs.put n.1 n.2) empty

variable {fs}

/-- What is put at a path with room is there, and nothing else moves. -/
theorem get_put {p : Path} (h : fs.Room p) (x : Node) (q : Path) :
    (fs.put p x).get q = if q = p then some x else fs.get q := by
  unfold put get
  rw [dif_pos h]
  by_cases hq : q = p
  · subst hq; simp [AList.lookup_insert]
  · simp [hq, AList.lookup_insert_ne hq]

/-- What is removed with nothing below it is gone, and nothing else moves. -/
theorem get_remove {p : Path} (h : fs.Bare p) (q : Path) :
    (fs.remove p).get q = if q = p then none else fs.get q := by
  unfold remove get
  rw [dif_pos h]
  by_cases hq : q = p
  · subst hq; simp [AList.lookup_erase]
  · simp [hq, AList.lookup_erase_ne hq]

@[simp] theorem get_sealDir (p q : Path) : (fs.sealDir p).get q = fs.get q := by
  unfold sealDir get
  split <;> rfl

@[simp] theorem sealed_put (p : Path) (x : Node) : (fs.put p x).sealed = fs.sealed := by
  unfold put
  split <;> rfl

/-- Removing a node seals nothing. -/
theorem sealed_remove (p : Path) : (fs.remove p).sealed ⊆ fs.sealed := by
  unfold remove
  split
  · exact List.filter_subset_self _
  · exact List.Subset.refl _

theorem remove_of_not_bare {p : Path} (h : ¬ fs.Bare p) : fs.remove p = fs := by
  unfold remove
  exact dif_neg h

/-- Other directories keep their permissions when a node goes. -/
theorem mem_sealed_remove {p q : Path} (hq : q ∈ fs.sealed) (hne : q ≠ p) :
    q ∈ (fs.remove p).sealed := by
  unfold remove
  split
  · exact List.mem_filter.mpr ⟨hq, decide_eq_true hne⟩
  · exact hq

/-- Only directories are sealed. -/
theorem not_sealed_of_leaf {p : Path} {x : Node} (h : fs.leaf p = some x) : p ∉ fs.sealed := by
  intro hp
  obtain ⟨hget, hx⟩ := fs.leaf_eq_some.mp h
  have hdir : fs.get p = some .dir := fs.sealed_dir p hp
  exact hx (Option.some.inj (hget.symm.trans hdir))

/-- Taking away a file or link leaves the directories as they are. -/
theorem sealed_remove_leaf {p : Path} {x : Node} (h : fs.leaf p = some x) :
    (fs.remove p).sealed = fs.sealed := by
  unfold remove
  split
  · refine List.filter_eq_self.mpr fun q hq => decide_eq_true ?_
    intro heq
    exact not_sealed_of_leaf h (heq ▸ hq)
  · rfl

/-- A file or link can be replaced. -/
theorem room_of_leaf {p : Path} {x : Node} (h : fs.get p = some x) (hx : x ≠ .dir) :
    fs.Room p := by
  have hp : p ≠ [] := by
    intro heq
    subst heq
    exact hx (Option.some.inj (h.symm.trans fs.get_root))
  refine ⟨hp, fs.get_dropLast h hp, by simp [h, hx], ?_⟩
  intro n hn
  exact fs.valid_of_get h (List.mem_of_getLast? hn)

/-- Nothing lies below a file or a link. -/
theorem bare_of_leaf {p : Path} {x : Node} (h : fs.get p = some x) (hx : x ≠ .dir) :
    fs.Bare p := by
  refine ⟨(room_of_leaf h hx).1, ?_⟩
  intro k hk hne heq
  have hdir := fs.parents k.dropLast (k.getLast hne)
    (by rw [List.dropLast_append_getLast hne]; exact AList.mem_keys.mp hk)
  rw [heq] at hdir
  exact hx (Option.some.inj (h.symm.trans hdir))

/-- Where there is room a node can still be placed after some other leaf is
taken away. -/
theorem room_remove {p q : Path} {x : Node} (h : fs.Room p) (hq : fs.get q = some x)
    (hx : x ≠ .dir) : (fs.remove q).Room p := by
  have hget := get_remove (bare_of_leaf hq hx)
  refine ⟨h.1, ?_, ?_, h.2.2.2⟩
  · rw [hget, if_neg, h.2.1]
    intro heq
    exact hx (Option.some.inj (hq.symm.trans (heq ▸ h.2.1)))
  · rw [hget]
    split
    · simp
    · exact h.2.2.1

/-! ## Path resolution -/

/-- The components of a link's target.  A final separator asks for a
directory, which `.` expresses. -/
def segments (t : Bytes) : List Name :=
  (t.splitOn slash).filter (· ≠ []) ++ (if t.getLast? = some slash then [dot] else [])

/-- Walk the components of a path from the directory `c`.  `chase c t rest`
continues at a link to `t` found in `c`; a link in last position is followed
only when `follow` asks for it. -/
def stepInto (fs : Fs) (follow : Bool)
    (chase : Path → Bytes → List Name → Except Errno Path) :
    Path → List Name → Except Errno Path
  | c, [] => .ok c
  | c, s :: rest =>
      if s = dot then stepInto fs follow chase c rest
      else if s = dotdot then stepInto fs follow chase c.dropLast rest
      else match fs.get (c ++ [s]) with
        | none =>
            if rest ≠ [] then .error .notFound
            else if ValidName s then .ok (c ++ [s])
            else .error .invalidInput
        | some .dir => stepInto fs follow chase (c ++ [s]) rest
        | some (.file _) =>
            if rest = [] then .ok (c ++ [s]) else .error .notADirectory
        | some (.symlink t) =>
            if rest = [] ∧ follow = false then .ok (c ++ [s]) else chase c t rest

/-- Continue a walk at a link, `n` further links being allowed. -/
def chaseLink (fs : Fs) (follow : Bool) : Nat → Path → Bytes → List Name →
    Except Errno Path
  | 0, _, _, _ => .error .filesystemLoop
  | n + 1, c, t, rest =>
      stepInto fs follow (chaseLink fs follow n)
        (if t.head? = some slash then [] else c) (segments t ++ rest)

/-- The physical path that the components `p` denote.  The last one need not
exist; at most forty links are followed. -/
def resolve (fs : Fs) (follow : Bool) (p : Path) : Except Errno Path :=
  stepInto fs follow (chaseLink fs follow 40) [] p

/-- Something stands at `q`, or a node could be placed there. -/
def Reached (fs : Fs) (q : Path) : Prop :=
  (∃ x, fs.get q = some x) ∨
    (q ≠ [] ∧ fs.get q.dropLast = some .dir ∧ ∀ n ∈ q.getLast?, ValidName n)

/-- A free place that can be reached has room. -/
theorem room_of_reached {q : Path} (h : fs.Reached q) (hnone : fs.get q = none) :
    fs.Room q := by
  rcases h with ⟨x, hx⟩ | ⟨hne, hpar, hvalid⟩
  · simp [hnone] at hx
  · exact ⟨hne, hpar, by simp [hnone], hvalid⟩

section Walk

variable {follow : Bool} {chase : Path → Bytes → List Name → Except Errno Path}

/-- A walk along a path ends at a node or where one can be placed. -/
theorem stepInto_reached {c q : Path} {r : List Name}
    (hchase : ∀ c t r, fs.get c = some .dir → chase c t r = .ok q → fs.Reached q)
    (hc : fs.get c = some .dir) (h : stepInto fs follow chase c r = .ok q) :
    fs.Reached q := by
  induction r generalizing c with
  | nil =>
      have hq : c = q := by simpa [stepInto] using h
      exact Or.inl ⟨_, hq ▸ hc⟩
  | cons s r ih =>
      unfold stepInto at h
      split at h
      · exact ih hc h
      · split at h
        · apply ih _ h
          by_cases hroot : c = []
          · simp [hroot]
          · exact fs.get_dropLast hc hroot
        · split at h
          case _ hnone =>
            split at h
            · cases h
            · split at h
              case isTrue hvalid =>
                cases h
                exact Or.inr ⟨by simp, by simpa using hc, by simpa using hvalid⟩
              · cases h
          case _ hdir => exact ih hdir h
          case _ hfile =>
            split at h
            · cases h; exact Or.inl ⟨_, hfile⟩
            · cases h
          case _ hlink =>
            split at h
            · cases h; exact Or.inl ⟨_, hlink⟩
            · exact hchase _ _ _ hc h

/-- So does one that goes on from a link. -/
theorem chaseLink_reached {n : Nat} {c q : Path} {t : Bytes} {r : List Name}
    (hc : fs.get c = some .dir) (h : chaseLink fs follow n c t r = .ok q) :
    fs.Reached q := by
  induction n generalizing c t r with
  | zero => cases h
  | succ n ih =>
      apply stepInto_reached (fun c t r hc h => ih hc h) _ h
      split
      · exact fs.get_root
      · exact hc

/-- A walk whose last component is `.` ends in a directory. -/
theorem stepInto_dot {c q : Path} {r : List Name}
    (hchase : ∀ c t r, fs.get c = some .dir → r.getLast? = some dot → chase c t r = .ok q →
      fs.get q = some .dir)
    (hc : fs.get c = some .dir) (hr : r = [] ∨ r.getLast? = some dot)
    (h : stepInto fs follow chase c r = .ok q) : fs.get q = some .dir := by
  induction r generalizing c with
  | nil =>
      have hq : c = q := by simpa [stepInto] using h
      exact hq ▸ hc
  | cons s r ih =>
      have hrest : r = [] ∨ r.getLast? = some dot := by
        cases r with
        | nil => exact Or.inl rfl
        | cons a r => exact Or.inr (by simpa using hr)
      unfold stepInto at h
      split at h
      · exact ih hc hrest h
      case _ hsdot =>
        have hlast : r.getLast? = some dot := by
          cases r with
          | nil => exact absurd (by simpa using hr) hsdot
          | cons a r => simpa using hr
        have hne : r ≠ [] := by
          intro hnil
          simp [hnil] at hlast
        split at h
        · apply ih _ hrest h
          by_cases hroot : c = []
          · simp [hroot]
          · exact fs.get_dropLast hc hroot
        · split at h
          · cases h
          case _ hdir => exact ih hdir hrest h
          · cases h
          · rw [if_neg (fun hboth => hne hboth.1)] at h
            exact hchase _ _ _ hc hlast h

/-- A walk that asks for a directory ends at one. -/
theorem chaseLink_dot {n : Nat} {c q : Path} {t : Bytes} {r : List Name}
    (hc : fs.get c = some .dir) (hr : r.getLast? = some dot)
    (h : chaseLink fs follow n c t r = .ok q) : fs.get q = some .dir := by
  induction n generalizing c t r with
  | zero => cases h
  | succ n ih =>
      apply stepInto_dot (fun c t r hc hr h => ih hc hr h) _ _ h
      · split
        · exact fs.get_root
        · exact hc
      · right
        have hne : r ≠ [] := by
          intro hnil
          simp [hnil] at hr
        rw [List.getLast?_append_of_ne_nil _ hne, hr]

/-- Walking one proper name, where no link is met. -/
theorem stepInto_cons {c : Path} {s : Name} {r : List Name} (hs : ValidName s)
    (hlink : ∀ t, fs.get (c ++ [s]) = some (.symlink t) → r = [] ∧ follow = false) :
    stepInto fs follow chase c (s :: r) =
      match fs.get (c ++ [s]) with
      | none => if r = [] then .ok (c ++ [s]) else .error .notFound
      | some .dir => stepInto fs follow chase (c ++ [s]) r
      | some _ => if r = [] then .ok (c ++ [s]) else .error .notADirectory := by
  have hdot : s ≠ dot := hs.2.1
  have hdotdot : s ≠ dotdot := hs.2.2.1
  simp only [stepInto, hdot, hdotdot, if_false]
  cases h : fs.get (c ++ [s]) with
  | none => by_cases hr : r = [] <;> simp [hr, hs]
  | some x => cases x with
    | dir => rfl
    | file d => rfl
    | symlink t => simp [hlink t h]

/-- A walk through directories ends where its components say. -/
theorem stepInto_of_parent {c : Path} {r : List Name}
    (hnames : ∀ n ∈ r, ValidName n) (hr : r ≠ [])
    (hpar : fs.get (c ++ r.dropLast) = some .dir)
    (hlast : follow = true → ∀ t, fs.get (c ++ r) ≠ some (.symlink t)) :
    stepInto fs follow chase c r = .ok (c ++ r) := by
  induction r generalizing c with
  | nil => exact absurd rfl hr
  | cons s r ih =>
      have hs := hnames s (by simp)
      cases r with
      | nil =>
          have hlink : ∀ t, fs.get (c ++ [s]) = some (.symlink t) →
              ([] : List Name) = [] ∧ follow = false := by
            intro t ht
            cases follow with
            | false => exact ⟨rfl, rfl⟩
            | true => exact absurd ht (hlast rfl t)
          rw [stepInto_cons hs hlink]
          cases h : fs.get (c ++ [s]) with
          | none => rfl
          | some x => cases x <;> rfl
      | cons s' r =>
          have hdir : fs.get (c ++ [s]) = some .dir := by
            by_cases hr : r = []
            · simpa [hr] using hpar
            · apply fs.get_of_append (q := (s' :: r).dropLast) (x := .dir)
              · simpa [List.append_assoc] using hpar
              · simp [List.dropLast_cons_of_ne_nil hr]
          rw [stepInto_cons hs (by simp [hdir]), hdir]
          have htail := ih (c := c ++ [s])
            (fun n hn => hnames n (List.mem_cons_of_mem _ hn)) (by simp)
            (by simpa [List.append_assoc] using hpar)
            (by simpa [List.append_assoc] using hlast)
          simpa [List.append_assoc] using htail

/-- With no link above the last component, a walk that succeeds ends where its
components say. -/
theorem stepInto_eq_self {c q : Path} {r : List Name}
    (hnames : ∀ n ∈ r, ValidName n)
    (hlinks : ∀ pre, pre <+: r → pre ≠ r → ∀ t, fs.get (c ++ pre) ≠ some (.symlink t))
    (hlast : follow = true → ∀ t, fs.get (c ++ r) ≠ some (.symlink t))
    (h : stepInto fs follow chase c r = .ok q) : q = c ++ r := by
  induction r generalizing c with
  | nil =>
      have hq : c = q := by simpa [stepInto] using h
      simp [hq]
  | cons s r ih =>
      have hs := hnames s (by simp)
      have hlink : ∀ t, fs.get (c ++ [s]) = some (.symlink t) → r = [] ∧ follow = false := by
        intro t ht
        by_cases hr : r = []
        · subst hr
          cases follow with
          | false => exact ⟨rfl, rfl⟩
          | true => exact absurd ht (hlast rfl t)
        · exact absurd ht (hlinks [s] ⟨r, rfl⟩ (by simpa using Ne.symm hr) t)
      rw [stepInto_cons hs hlink] at h
      cases hx : fs.get (c ++ [s]) with
      | none =>
          rw [hx] at h
          by_cases hr : r = []
          · subst hr; simpa using h.symm
          · simp [hr] at h
      | some x =>
          rw [hx] at h
          cases x with
          | dir =>
              have htail := ih (c := c ++ [s])
                (fun n hn => hnames n (List.mem_cons_of_mem _ hn))
                (fun pre hpre hne t => by
                  have := hlinks (s :: pre) (List.cons_prefix_cons.mpr ⟨rfl, hpre⟩)
                    (by simpa using hne) t
                  simpa [List.append_assoc] using this)
                (by simpa [List.append_assoc] using hlast) h
              simpa [List.append_assoc] using htail
          | file d =>
              by_cases hr : r = []
              · subst hr; simpa using h.symm
              · simp [hr] at h
          | symlink t =>
              have hr := (hlink t hx).1
              subst hr
              simpa using h.symm

/-- A component that is missing under directories is reported as missing. -/
theorem stepInto_notFound {c : Path} {r : List Name}
    (hnames : ∀ n ∈ r, ValidName n)
    (hpre : ∀ pre, pre <+: r → pre ≠ r →
      fs.get (c ++ pre) = some .dir ∨ fs.get (c ++ pre) = none)
    (hmiss : ∃ pre, pre <+: r ∧ pre ≠ r ∧ fs.get (c ++ pre) = none)
    (hc : fs.get c = some .dir) :
    stepInto fs follow chase c r = .error .notFound := by
  induction r generalizing c with
  | nil =>
      obtain ⟨pre, hp, hne, _⟩ := hmiss
      exact absurd (List.prefix_nil.mp hp) hne
  | cons s r ih =>
      have hs := hnames s (by simp)
      obtain ⟨pre, hp, hne, hnone⟩ := hmiss
      have hr : r ≠ [] := by
        intro hr
        subst hr
        rcases pre with _ | ⟨a, tail⟩
        · simp [hc] at hnone
        · obtain ⟨ha, htail⟩ := List.cons_prefix_cons.mp hp
          exact hne (by rw [ha, List.prefix_nil.mp htail])
      rcases hpre [s] ⟨r, rfl⟩ (by simpa using Ne.symm hr) with hdir | hnone'
      · obtain ⟨tail, htail⟩ : ∃ tail, pre = s :: tail := by
          cases pre with
          | nil => simp [hc] at hnone
          | cons a tail => exact ⟨tail, by rw [(List.cons_prefix_cons.mp hp).1]⟩
        subst htail
        rw [stepInto_cons hs (by simp [hdir]), hdir]
        apply ih (fun n hn => hnames n (List.mem_cons_of_mem _ hn)) _ _ hdir
        · intro pre' hp' hne'
          have := hpre (s :: pre') (List.cons_prefix_cons.mpr ⟨rfl, hp'⟩) (by simpa using hne')
          simpa [List.append_assoc] using this
        · exact ⟨tail, (List.cons_prefix_cons.mp hp).2, by simpa using hne,
            by simpa [List.append_assoc] using hnone⟩
      · rw [stepInto_cons hs (by simp [hnone']), hnone']
        simp [hr]

/-- Where the walk leads does not depend on the name that comes last. -/
theorem stepInto_snoc {c : Path} {r : List Name} {n : Name} (hn : ValidName n)
    (hchase : ∀ c t r, chase c t (r ++ [n]) = (chase c t (r ++ [dot])).map (· ++ [n])) :
    stepInto fs false chase c (r ++ [n]) =
      (stepInto fs false chase c (r ++ [dot])).map (· ++ [n]) := by
  induction r generalizing c with
  | nil =>
      have hstep : stepInto fs false chase c [n] = _ := stepInto_cons hn fun _ _ => ⟨rfl, rfl⟩
      rw [List.nil_append, List.nil_append, hstep]
      have hdot : stepInto fs false chase c [dot] = .ok c := by simp [stepInto]
      rw [hdot]
      cases h : fs.get (c ++ [n]) with
      | none => rfl
      | some x => cases x <;> rfl
  | cons s r ih =>
      have hne : ∀ a, r ++ [a] ≠ [] := by simp
      rw [List.cons_append, List.cons_append]
      unfold stepInto
      split
      · exact ih
      · split
        · exact ih
        · split
          · rw [if_pos (hne _), if_pos (hne _)]; rfl
          · exact ih
          · rw [if_neg (hne _), if_neg (hne _)]; rfl
          · rw [if_neg (fun hboth => hne _ hboth.1), if_neg (fun hboth => hne _ hboth.1)]
            exact hchase _ _ _

/-- A walk that ends in a directory gets there also after nodes were added,
and also when it is asked for a directory. -/
theorem stepInto_extend {follow₁ : Bool} {fs₁ : Fs} {c q : Path} {r tail : List Name}
    {chase₁ : Path → Bytes → List Name → Except Errno Path}
    (htail : tail = [] ∧ follow₁ = follow ∨ tail = [dot])
    (hsub : ∀ p x, fs.get p = some x → fs₁.get p = some x) (hq : fs₁.get q = some .dir)
    (hchase : ∀ c t r, chase c t r = .ok q → chase₁ c t (r ++ tail) = .ok q)
    (h : stepInto fs follow chase c r = .ok q) :
    stepInto fs₁ follow₁ chase₁ c (r ++ tail) = .ok q := by
  have hend : stepInto fs₁ follow₁ chase₁ q tail = .ok q := by
    rcases htail with ⟨rfl, _⟩ | rfl <;> simp [stepInto]
  induction r generalizing c with
  | nil =>
      have hc : c = q := by simpa [stepInto] using h
      rw [hc]
      exact hend
  | cons s r ih =>
      rw [List.cons_append]
      unfold stepInto at h ⊢
      by_cases hs : s = dot
      · rw [if_pos hs] at h ⊢
        exact ih h
      · rw [if_neg hs] at h ⊢
        by_cases hdd : s = dotdot
        · rw [if_pos hdd] at h ⊢
          exact ih h
        · rw [if_neg hdd] at h ⊢
          cases hx : fs.get (c ++ [s]) with
          | none =>
              simp only [hx] at h
              split at h
              · cases h
              case _ hr =>
                split at h
                · cases h
                  have hr' : r = [] := by simpa using hr
                  subst hr'
                  rw [hq]
                  exact hend
                · cases h
          | some x =>
              rw [hsub _ _ hx]
              simp only [hx] at h
              cases x with
              | dir => exact ih h
              | file d =>
                  simp only at h
                  split at h
                  · cases h
                    rw [hsub _ _ hx] at hq
                    cases hq
                  · cases h
              | symlink t =>
                  simp only at h ⊢
                  split at h
                  · cases h
                    rw [hsub _ _ hx] at hq
                    cases hq
                  case _ hnot =>
                    rw [if_neg]
                    · exact hchase _ _ _ h
                    · intro hboth
                      obtain ⟨hr, htl⟩ := List.append_eq_nil_iff.mp hboth.1
                      rcases htail with ⟨_, hf⟩ | hdot
                      · exact hnot ⟨hr, hf ▸ hboth.2⟩
                      · simp [hdot] at htl

end Walk

/-- A name at the end of a path is looked for in the directory before it. -/
theorem chaseLink_snoc {k : Nat} {c : Path} {t : Bytes} {r : List Name} {n : Name}
    (hn : ValidName n) : chaseLink fs false k c t (r ++ [n]) =
      (chaseLink fs false k c t (r ++ [dot])).map (· ++ [n]) := by
  induction k generalizing c t r with
  | zero => rfl
  | succ k ih =>
      unfold chaseLink
      rw [← List.append_assoc, ← List.append_assoc]
      exact stepInto_snoc hn fun _ _ _ => ih

/-- The directory in which a path's last name is looked up is the same for
every name. -/
theorem resolve_snoc {p : Path} {n : Name} (hn : ValidName n) :
    fs.resolve false (p ++ [n]) = (fs.resolve false (p ++ [dot])).map (· ++ [n]) :=
  stepInto_snoc hn fun _ _ _ => chaseLink_snoc hn

/-- A walk that ended in a directory ends there in a tree with more nodes. -/
theorem chaseLink_extend {follow follow₁ : Bool} {fs₁ : Fs} {k : Nat} {c q : Path} {t : Bytes}
    {r tail : List Name} (htail : tail = [] ∧ follow₁ = follow ∨ tail = [dot])
    (hsub : ∀ p x, fs.get p = some x → fs₁.get p = some x)
    (hq : fs₁.get q = some .dir) (h : chaseLink fs follow k c t r = .ok q) :
    chaseLink fs₁ follow₁ k c t (r ++ tail) = .ok q := by
  induction k generalizing c t r with
  | zero => cases h
  | succ k ih =>
      unfold chaseLink at h ⊢
      rw [← List.append_assoc]
      exact stepInto_extend htail hsub hq (fun _ _ _ h => ih h) h

/-- A path to a directory leads there also when it says that it asks for one. -/
theorem resolve_snoc_dot {follow : Bool} {fs₁ : Fs} {p q : Path}
    (hsub : ∀ p x, fs.get p = some x → fs₁.get p = some x) (hq : fs₁.get q = some .dir)
    (h : fs.resolve follow p = .ok q) : fs₁.resolve false (p ++ [dot]) = .ok q :=
  stepInto_extend (Or.inr rfl) hsub hq
    (fun _ _ _ h => chaseLink_extend (Or.inr rfl) hsub hq h) h

/-- A path to a directory keeps its meaning while nodes are added. -/
theorem resolve_sub {follow : Bool} {fs₁ : Fs} {p q : Path}
    (hsub : ∀ p x, fs.get p = some x → fs₁.get p = some x) (hq : fs₁.get q = some .dir)
    (h : fs.resolve follow p = .ok q) : fs₁.resolve follow p = .ok q := by
  have hwalk : stepInto fs₁ follow _ [] (p ++ []) = .ok q :=
    stepInto_extend (Or.inl ⟨rfl, rfl⟩) hsub hq
      (fun _ _ _ h => chaseLink_extend (Or.inl ⟨rfl, rfl⟩) hsub hq h) h
  rw [List.append_nil] at hwalk
  exact hwalk

/-- From `fs` to `fs'` nodes were added and files and links were replaced by
files; nothing else changed. -/
structure Grows (fs fs' : Fs) : Prop where
  dirs : ∀ q, fs.get q = some .dir → fs'.get q = some .dir
  leaves : ∀ q x, fs.leaf q = some x → fs'.leaf q = some x ∨ ∃ d, fs'.leaf q = some (.file d)
  links : ∀ q t, fs'.leaf q = some (.symlink t) → fs.leaf q = some (.symlink t)

theorem Grows.refl (fs : Fs) : Grows fs fs :=
  ⟨fun _ h => h, fun _ _ h => Or.inl h, fun _ _ h => h⟩

/-- Growing twice is growing. -/
theorem Grows.trans {fs₁ fs₂ fs₃ : Fs} (h₁ : Grows fs₁ fs₂) (h₂ : Grows fs₂ fs₃) :
    Grows fs₁ fs₃ := by
  refine ⟨fun q h => h₂.dirs q (h₁.dirs q h), ?_, fun q t h => h₁.links q t (h₂.links q t h)⟩
  intro q x hx
  rcases h₁.leaves q x hx with hsame | ⟨d, hd⟩
  · exact h₂.leaves q x hsame
  · right
    rcases h₂.leaves q _ hd with hsame | hfile
    · exact ⟨d, hsame⟩
    · exact hfile

/-- Two walks to a directory, before and after the tree grew, end at the same
place: a link on the way is still there or it is in the way. -/
theorem stepInto_grows {follow : Bool} {fs' : Fs} {c q q' : Path} {r : List Name}
    {chase chase' : Path → Bytes → List Name → Except Errno Path} (hgrows : Grows fs fs')
    (hchase : ∀ c t r, r.getLast? = some dot → chase c t r = .ok q → chase' c t r = .ok q' →
      q = q')
    (hr : r = [] ∨ r.getLast? = some dot) (h : stepInto fs follow chase c r = .ok q)
    (h' : stepInto fs' follow chase' c r = .ok q') : q = q' := by
  induction r generalizing c with
  | nil =>
      have hq : c = q := by simpa [stepInto] using h
      have hq' : c = q' := by simpa [stepInto] using h'
      exact hq.symm.trans hq'
  | cons s r ih =>
      have hrest : r = [] ∨ r.getLast? = some dot := by
        cases r with
        | nil => exact Or.inl rfl
        | cons a r => exact Or.inr (by simpa using hr)
      unfold stepInto at h h'
      by_cases hs : s = dot
      · rw [if_pos hs] at h h'
        exact ih hrest h h'
      · have hlast : r.getLast? = some dot := by
          cases r with
          | nil => exact absurd (by simpa using hr) hs
          | cons a r => simpa using hr
        have hne : r ≠ [] := by
          intro hnil
          simp [hnil] at hlast
        rw [if_neg hs] at h h'
        by_cases hdd : s = dotdot
        · rw [if_pos hdd] at h h'
          exact ih hrest h h'
        · rw [if_neg hdd] at h h'
          cases hx : fs.get (c ++ [s]) with
          | none =>
              simp only [hx] at h
              rw [if_pos hne] at h
              cases h
          | some x =>
              cases x with
              | dir =>
                  rw [hgrows.dirs _ hx] at h'
                  rw [hx] at h
                  exact ih hrest h h'
              | file d =>
                  simp only [hx] at h
                  rw [if_neg hne] at h
                  cases h
              | symlink t =>
                  simp only [hx] at h
                  rw [if_neg (fun hboth => hne hboth.1)] at h
                  have hleaf : fs.leaf (c ++ [s]) = some (.symlink t) :=
                    fs.leaf_eq_some.mpr ⟨hx, by simp⟩
                  rcases hgrows.leaves _ _ hleaf with hsame | ⟨d, hd⟩
                  · simp only [(fs'.leaf_eq_some.mp hsame).1] at h'
                    rw [if_neg (fun hboth => hne hboth.1)] at h'
                    exact hchase _ _ _ hlast h h'
                  · simp only [(fs'.leaf_eq_some.mp hd).1] at h'
                    rw [if_neg hne] at h'
                    cases h'

/-- In a tree that has grown a walk to a directory ends where it did. -/
theorem chaseLink_grows {follow : Bool} {fs' : Fs} {k : Nat} {c q q' : Path} {t : Bytes}
    {r : List Name} (hgrows : Grows fs fs') (hr : r.getLast? = some dot)
    (h : chaseLink fs follow k c t r = .ok q) (h' : chaseLink fs' follow k c t r = .ok q') :
    q = q' := by
  induction k generalizing c t r with
  | zero => cases h
  | succ k ih =>
      have hne : r ≠ [] := by
        intro hnil
        simp [hnil] at hr
      unfold chaseLink at h h'
      refine stepInto_grows hgrows (fun _ _ _ hr h h' => ih hr h h') (Or.inr ?_) h h'
      rw [List.getLast?_append_of_ne_nil _ hne, hr]

/-- A path to a directory keeps its meaning, or loses it, while the tree grows. -/
theorem resolve_grows {follow : Bool} {fs' : Fs} {p q q' : Path} (hgrows : Grows fs fs')
    (h : fs.resolve follow (p ++ [dot]) = .ok q) (h' : fs'.resolve follow (p ++ [dot]) = .ok q') :
    q = q' :=
  stepInto_grows hgrows (fun _ _ _ hr h h' => chaseLink_grows hgrows hr h h')
    (Or.inr (by simp)) h h'

/-- What only gains nodes, or has files in the place of files and links, grows. -/
theorem grows_of_files {fs fs' : Fs} (h : ∀ q, fs'.get q = fs.get q ∨
    (fs.get q ≠ some .dir ∧ ∃ d, fs'.get q = some (.file d))) : Grows fs fs' := by
  have hleaf : ∀ q, fs'.leaf q = fs.leaf q ∨ ∃ d, fs'.leaf q = some (.file d) := by
    intro q
    rcases h q with heq | ⟨_, d, hd⟩
    · left; unfold leaf; rw [heq]
    · exact Or.inr ⟨d, fs'.leaf_eq_some.mpr ⟨hd, by simp⟩⟩
  refine ⟨?_, ?_, ?_⟩
  · intro q hq
    rcases h q with heq | ⟨hne, _⟩
    · rw [heq, hq]
    · exact absurd hq hne
  · intro q x hx
    rcases hleaf q with heq | hfile
    · exact Or.inl (heq.trans hx)
    · exact Or.inr hfile
  · intro q t ht
    rcases hleaf q with heq | ⟨d, hd⟩
    · rw [← heq, ht]
    · rw [ht] at hd; cases hd

/-- Nothing stands there, or a file. -/
def Flat (x : Option Node) : Prop := x = none ∨ ∃ d, x = some (.file d)

/-- The two trees have the same directories and links. -/
def SameShape (fs fs' : Fs) : Prop :=
  ∀ q, fs'.get q = fs.get q ∨ Flat (fs.get q) ∧ Flat (fs'.get q)

/-- Having the same shape goes both ways. -/
theorem SameShape.symm {fs fs' : Fs} (h : SameShape fs fs') : SameShape fs' fs := by
  intro q
  rcases h q with heq | ⟨hold, hnew⟩
  · exact Or.inl heq.symm
  · exact Or.inr ⟨hnew, hold⟩

/-- Shapes are compared step by step. -/
theorem SameShape.trans {fs₁ fs₂ fs₃ : Fs} (h₁ : SameShape fs₁ fs₂) (h₂ : SameShape fs₂ fs₃) :
    SameShape fs₁ fs₃ := by
  intro q
  rcases h₂ q with heq | ⟨hold, hnew⟩
  · rw [heq]
    exact h₁ q
  · rcases h₁ q with heq | ⟨hfirst, _⟩
    · exact Or.inr ⟨heq ▸ hold, hnew⟩
    · exact Or.inr ⟨hfirst, hnew⟩

/-- A walk that meets nothing or a file is at its end. -/
theorem stepInto_flat {follow : Bool} {chase : Path → Bytes → List Name → Except Errno Path}
    {c : Path} {s : Name} {r : List Name} (hdot : s ≠ dot) (hdotdot : s ≠ dotdot)
    (hflat : Flat (fs.get (c ++ [s]))) {q : Path} :
    stepInto fs follow chase c (s :: r) = .ok q ↔ r = [] ∧ ValidName s ∧ q = c ++ [s] := by
  unfold stepInto
  rw [if_neg hdot, if_neg hdotdot]
  rcases hflat with hnone | ⟨d, hd⟩
  · rw [hnone]
    by_cases hr : r = [] <;> by_cases hs : ValidName s <;> simp [hr, hs, eq_comm]
  · have hs : ValidName s := fs.valid_of_get hd (by simp)
    rw [hd]
    by_cases hr : r = [] <;> simp [hr, hs, eq_comm]

/-- A walk does not depend on the files. -/
theorem stepInto_shape {follow : Bool} {fs' : Fs} {c q : Path} {r : List Name}
    {chase chase' : Path → Bytes → List Name → Except Errno Path} (hshape : SameShape fs fs')
    (hchase : ∀ c t r, chase c t r = .ok q → chase' c t r = .ok q)
    (h : stepInto fs follow chase c r = .ok q) : stepInto fs' follow chase' c r = .ok q := by
  induction r generalizing c with
  | nil => simpa [stepInto] using h
  | cons s r ih =>
      by_cases hs : s = dot
      · unfold stepInto at h ⊢
        rw [if_pos hs] at h ⊢
        exact ih h
      · by_cases hdd : s = dotdot
        · unfold stepInto at h ⊢
          rw [if_neg hs, if_pos hdd] at h ⊢
          exact ih h
        · rcases hshape (c ++ [s]) with heq | ⟨hold, hnew⟩
          · unfold stepInto at h ⊢
            rw [if_neg hs, if_neg hdd] at h ⊢
            rw [heq]
            cases hx : fs.get (c ++ [s]) with
            | none => simpa only [hx] using h
            | some x =>
                simp only [hx] at h ⊢
                cases x with
                | dir => exact ih h
                | file d => exact h
                | symlink t =>
                    simp only at h ⊢
                    split at h
                    case isTrue hend => rw [if_pos hend]; exact h
                    case isFalse hend => rw [if_neg hend]; exact hchase _ _ _ h
          · exact (stepInto_flat hs hdd hnew).mpr ((stepInto_flat hs hdd hold).mp h)

/-- Nor does one that goes on from a link. -/
theorem chaseLink_shape {follow : Bool} {fs' : Fs} {k : Nat} {c q : Path} {t : Bytes}
    {r : List Name} (hshape : SameShape fs fs') (h : chaseLink fs follow k c t r = .ok q) :
    chaseLink fs' follow k c t r = .ok q := by
  induction k generalizing c t r with
  | zero => cases h
  | succ k ih =>
      unfold chaseLink at h ⊢
      exact stepInto_shape hshape (fun _ _ _ h => ih h) h

/-- Files that come and go do not change where paths lead. -/
theorem resolve_shape {follow : Bool} {fs' : Fs} {p q : Path} (hshape : SameShape fs fs')
    (h : fs.resolve follow p = .ok q) : fs'.resolve follow p = .ok q :=
  stepInto_shape hshape (fun _ _ _ h => chaseLink_shape hshape h) h

/-- A walk that ends at no link is the same with the last link followed. -/
theorem stepInto_follow {c q : Path} {r : List Name}
    {chase chase' : Path → Bytes → List Name → Except Errno Path}
    (hq : ∀ t, fs.get q ≠ some (.symlink t))
    (hchase : ∀ c t r, chase c t r = .ok q → chase' c t r = .ok q)
    (h : stepInto fs false chase c r = .ok q) : stepInto fs true chase' c r = .ok q := by
  induction r generalizing c with
  | nil => simpa [stepInto] using h
  | cons s r ih =>
      unfold stepInto at h ⊢
      by_cases hs : s = dot
      · rw [if_pos hs] at h ⊢
        exact ih h
      · rw [if_neg hs] at h ⊢
        by_cases hdd : s = dotdot
        · rw [if_pos hdd] at h ⊢
          exact ih h
        · rw [if_neg hdd] at h ⊢
          cases hx : fs.get (c ++ [s]) with
          | none => simpa only [hx] using h
          | some x =>
              simp only [hx] at h ⊢
              cases x with
              | dir => exact ih h
              | file d => exact h
              | symlink t =>
                  simp only at h ⊢
                  split at h
                  · cases h
                    exact absurd hx (hq t)
                  · rw [if_neg (by simp)]
                    exact hchase _ _ _ h

/-- So is one that goes on from a link. -/
theorem chaseLink_follow {k : Nat} {c q : Path} {t : Bytes} {r : List Name}
    (hq : ∀ t, fs.get q ≠ some (.symlink t)) (h : chaseLink fs false k c t r = .ok q) :
    chaseLink fs true k c t r = .ok q := by
  induction k generalizing c t r with
  | zero => cases h
  | succ k ih =>
      unfold chaseLink at h ⊢
      exact stepInto_follow hq (fun _ _ _ h => ih h) h

/-- A path that leads to no link leads there when links are followed too. -/
theorem resolve_follow {p q : Path} (hq : ∀ t, fs.get q ≠ some (.symlink t))
    (h : fs.resolve false p = .ok q) : fs.resolve true p = .ok q :=
  stepInto_follow hq (fun _ _ _ h => chaseLink_follow hq h) h

/-- A walk that follows the last link comes to that link first. -/
theorem stepInto_entry {c q : Path} {r : List Name}
    {chase chase' : Path → Bytes → List Name → Except Errno Path}
    (hchase : ∀ c t r, chase c t r = .ok q → ∃ q', chase' c t r = .ok q')
    (h : stepInto fs true chase c r = .ok q) : ∃ q', stepInto fs false chase' c r = .ok q' := by
  induction r generalizing c with
  | nil => exact ⟨c, rfl⟩
  | cons s r ih =>
      unfold stepInto at h ⊢
      by_cases hs : s = dot
      · rw [if_pos hs] at h ⊢
        exact ih h
      · rw [if_neg hs] at h ⊢
        by_cases hdd : s = dotdot
        · rw [if_pos hdd] at h ⊢
          exact ih h
        · rw [if_neg hdd] at h ⊢
          cases hx : fs.get (c ++ [s]) with
          | none => exact ⟨q, by simpa only [hx] using h⟩
          | some x =>
              simp only [hx] at h ⊢
              cases x with
              | dir => exact ih h
              | file d => exact ⟨q, h⟩
              | symlink t =>
                  simp only at h ⊢
                  rw [if_neg (by simp)] at h
                  split
                  · exact ⟨_, rfl⟩
                  · exact hchase _ _ _ h

/-- So does one that goes on from a link. -/
theorem chaseLink_entry {k : Nat} {c q : Path} {t : Bytes} {r : List Name}
    (h : chaseLink fs true k c t r = .ok q) : ∃ q', chaseLink fs false k c t r = .ok q' := by
  induction k generalizing c t r with
  | zero => cases h
  | succ k ih =>
      unfold chaseLink at h ⊢
      exact stepInto_entry (fun _ _ _ h => ih h) h

/-- A path that leads somewhere has an entry, a link perhaps. -/
theorem resolve_entry {p q : Path} (h : fs.resolve true p = .ok q) :
    ∃ q', fs.resolve false p = .ok q' :=
  stepInto_entry (fun _ _ _ h => chaseLink_entry h) h

/-- Resolution ends at a node or where one can be placed. -/
theorem resolve_reached {follow : Bool} {p q : Path} (h : fs.resolve follow p = .ok q) :
    fs.Reached q :=
  stepInto_reached (fun _ _ _ hc h => chaseLink_reached hc h) fs.get_root h

/-- A path that asks for a directory resolves to one. -/
theorem resolve_dot {follow : Bool} {p q : Path} (h : fs.resolve follow (p ++ [dot]) = .ok q) :
    fs.get q = some .dir :=
  stepInto_dot (fun _ _ _ hc hr h => chaseLink_dot hc hr h) fs.get_root (Or.inr (by simp)) h

/-- A path whose parent is a directory resolves to itself. -/
theorem resolve_of_parent {follow : Bool} {p : Path} (hnames : ∀ n ∈ p, ValidName n)
    (hp : p ≠ []) (hpar : fs.get p.dropLast = some .dir)
    (hlast : follow = true → ∀ t, fs.get p ≠ some (.symlink t)) :
    fs.resolve follow p = .ok p :=
  stepInto_of_parent (c := []) hnames hp (by simpa using hpar) (by simpa using hlast)

/-- An existing node is found under its own physical path. -/
theorem resolve_of_get {follow : Bool} {p : Path} {x : Node} (h : fs.get p = some x)
    (hlast : follow = true → ∀ t, x ≠ .symlink t) : fs.resolve follow p = .ok p := by
  by_cases hp : p = []
  · subst hp; rfl
  · apply resolve_of_parent (fun n hn => fs.valid_of_get h hn) hp (fs.get_dropLast h hp)
    intro hf t ht
    exact hlast hf t (Option.some.inj (h.symm.trans ht))

/-- A path without links leads to itself. -/
theorem resolve_eq_self {follow : Bool} {p q : Path} (hnames : ∀ n ∈ p, ValidName n)
    (hlinks : ∀ pre, pre <+: p → pre ≠ p → ∀ t, fs.get pre ≠ some (.symlink t))
    (hlast : follow = true → ∀ t, fs.get p ≠ some (.symlink t))
    (h : fs.resolve follow p = .ok q) : q = p := by
  simpa using stepInto_eq_self (c := []) hnames (by simpa using hlinks)
    (by simpa using hlast) h

/-- A path below something that is missing is not found. -/
theorem resolve_notFound {follow : Bool} {p : Path} (hnames : ∀ n ∈ p, ValidName n)
    (hpre : ∀ pre, pre <+: p → pre ≠ p → fs.get pre = some .dir ∨ fs.get pre = none)
    (hmiss : ∃ pre, pre <+: p ∧ pre ≠ p ∧ fs.get pre = none) :
    fs.resolve follow p = .error .notFound :=
  stepInto_notFound (c := []) hnames (by simpa using hpre) (by simpa using hmiss) fs.get_root

end Fs

end FileTree
