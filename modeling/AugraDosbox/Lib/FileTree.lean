import Mathlib.Data.List.Induction
import Mathlib.Data.Set.Function
import Mathlib.Tactic.Common

/-!
# Trees of files

An ordinary writable tree of directories and files, with the files that are open.

* `Tree` — what is at each path, what is in each file, and which files are open.  A file is
  an inode: it stays the same file when it is renamed, and it is still there for those who
  have it open when it is unlinked;
* `Call`, `Tree.Can`, `Tree.apply` — the calls, when they succeed and what they do;
* `Like link known u t` — the trees `u` and `t` differ only in the numbers of their inodes:
  `link` takes those of `u` to those of `t`;
* **`Like.apply`** — a call that succeeds on a tree succeeds on every tree like it, and the
  two stay alike;
* `Like.relabel` — so they do when a file of one of them gets another inode.
-/

namespace FileTree

/-- A file.  Those that are there at the beginning are told apart by their path. -/
inductive Inode (N : Type*) where
  | ofBase (p : List N)
  | made (n : ℕ)
deriving DecidableEq

/-- What is at a path. -/
inductive Node (ι : Type*) where
  | dir
  | file (i : ι)
deriving DecidableEq

/-- An open file. -/
structure OpenFile (ι : Type*) where
  inode : ι
  pos : ℕ
  readable : Bool
  writable : Bool
deriving DecidableEq

def Node.map {ι κ : Type*} (f : ι → κ) : Node ι → Node κ
  | .dir => .dir
  | .file i => .file (f i)

def OpenFile.map {ι κ : Type*} (f : ι → κ) (o : OpenFile ι) : OpenFile κ :=
  { o with inode := f o.inode }

@[ext]
structure Tree (N B : Type*) where
  node : List N → Option (Node (Inode N))
  content : Inode N → List B
  files : ℕ → Option (OpenFile (Inode N))
  /-- The number of the next file that is made. -/
  next : ℕ

/-- A call, with the number that an opened file gets or has. -/
inductive Call (N B : Type*) where
  | create (p : List N) (h : ℕ)
  | openFile (p : List N) (h : ℕ) (readable writable : Bool)
  | read (h n : ℕ)
  | write (h : ℕ) (data : List B)
  | seek (h pos : ℕ)
  | close (h : ℕ)
  | unlink (p : List N)
  | rename (p q : List N)
  | mkdir (p : List N)
  | rmdir (p : List N)

/-- The content of a file after a write at a position: what is missing before it is filled
with zeros, and a write of nothing cuts the file off there. -/
def writeAt {B : Type*} [Zero B] (content : List B) (pos : ℕ) (data : List B) : List B :=
  (content ++ List.replicate (pos - content.length) 0).take pos ++ data ++
    if data = [] then [] else content.drop (pos + data.length)

namespace Tree

variable {N B : Type*} (t : Tree N B)

/-! ## Calls -/

/-- The bytes that a read gives. -/
def readBytes (o : OpenFile (Inode N)) (n : ℕ) : List B := ((t.content o.inode).drop o.pos).take n

/-- When a call succeeds. -/
def Can : Call N B → Prop
  | .create p h =>
    t.files h = none ∧ t.node p.dropLast = some .dir ∧ t.node p ≠ some .dir
  | .openFile p h _ _ => t.files h = none ∧ ∃ i, t.node p = some (.file i)
  | .read h _ => ∃ o, t.files h = some o ∧ o.readable = true
  | .write h _ => ∃ o, t.files h = some o ∧ o.writable = true
  | .seek h _ => t.files h ≠ none
  | .close h => t.files h ≠ none
  | .unlink p => ∃ i, t.node p = some (.file i)
  | .rename p q =>
    (∃ i, t.node p = some (.file i)) ∧ t.node q.dropLast = some .dir ∧ t.node q ≠ some .dir
  | .mkdir p => t.node p = none ∧ t.node p.dropLast = some .dir
  | .rmdir p => p ≠ [] ∧ t.node p = some .dir ∧ ∀ n, t.node (p ++ [n]) = none

def setFile (h : ℕ) (o : Option (OpenFile (Inode N))) : Tree N B :=
  { t with files := Function.update t.files h o }

@[simp] theorem setFile_node (h : ℕ) (o : Option (OpenFile (Inode N))) :
    (t.setFile h o).node = t.node := rfl
@[simp] theorem setFile_files (h : ℕ) (o : Option (OpenFile (Inode N))) :
    (t.setFile h o).files = Function.update t.files h o := rfl
@[simp] theorem setFile_content (h : ℕ) (o : Option (OpenFile (Inode N))) :
    (t.setFile h o).content = t.content := rfl

section

variable [DecidableEq N]

def setNode (p : List N) (x : Option (Node (Inode N))) : Tree N B :=
  { t with node := Function.update t.node p x }

def setContent (i : Inode N) (content : List B) : Tree N B :=
  { t with content := Function.update t.content i content }

@[simp] theorem setNode_node (p : List N) (x : Option (Node (Inode N))) :
    (t.setNode p x).node = Function.update t.node p x := rfl
@[simp] theorem setNode_files (p : List N) (x : Option (Node (Inode N))) :
    (t.setNode p x).files = t.files := rfl
@[simp] theorem setNode_content (p : List N) (x : Option (Node (Inode N))) :
    (t.setNode p x).content = t.content := rfl
@[simp] theorem setContent_node (i : Inode N) (content : List B) :
    (t.setContent i content).node = t.node := rfl
@[simp] theorem setContent_files (i : Inode N) (content : List B) :
    (t.setContent i content).files = t.files := rfl
@[simp] theorem setContent_content (i : Inode N) (content : List B) :
    (t.setContent i content).content = Function.update t.content i content := rfl

/-- A new and empty file, not yet at any path. -/
def alloc : Tree N B := { t.setContent (.made t.next) [] with next := t.next + 1 }

theorem setNode_setNode (p : List N) (x y : Option (Node (Inode N))) :
    (t.setNode p x).setNode p y = t.setNode p y := by
  refine Tree.ext ?_ rfl rfl rfl
  exact Function.update_idem ..

theorem setNode_comm {p q : List N} (hpq : p ≠ q) (x y : Option (Node (Inode N))) :
    (t.setNode p x).setNode q y = (t.setNode q y).setNode p x := by
  refine Tree.ext ?_ rfl rfl rfl
  exact Function.update_comm hpq x y t.node

theorem setContent_setContent (i : Inode N) (content content' : List B) :
    (t.setContent i content).setContent i content' = t.setContent i content' := by
  refine Tree.ext rfl ?_ rfl rfl
  rw [setContent_content, setContent_content, Function.update_idem]
  rfl

/-- Only the last entry for an open file counts. -/
theorem setFile_setContent_setFile (h : ℕ) (o o' : Option (OpenFile (Inode N))) (i : Inode N)
    (content : List B) :
    ((t.setFile h o).setContent i content).setFile h o' = (t.setContent i content).setFile h o' := by
  refine Tree.ext rfl rfl ?_ rfl
  exact Function.update_idem ..

theorem alloc_setContent_nil (p : List N) (x : Option (Node (Inode N))) :
    (t.alloc.setNode p x).setContent (.made t.next) [] = t.alloc.setNode p x := by
  refine Tree.ext rfl ?_ rfl rfl
  exact Function.update_idem ..

/-- The effect of a call that succeeds. -/
def apply [Zero B] : Call N B → Tree N B
  | .create p h =>
    match t.node p with
    | some (.file i) => (t.setContent i []).setFile h (some ⟨i, 0, true, true⟩)
    | _ => (t.alloc.setNode p (some (.file (.made t.next)))).setFile h
        (some ⟨.made t.next, 0, true, true⟩)
  | .openFile p h readable writable =>
    match t.node p with
    | some (.file i) => t.setFile h (some ⟨i, 0, readable, writable⟩)
    | _ => t
  | .read h n =>
    match t.files h with
    | some o => t.setFile h (some { o with pos := o.pos + (t.readBytes o n).length })
    | none => t
  | .write h data =>
    match t.files h with
    | some o => (t.setContent o.inode (writeAt (t.content o.inode) o.pos data)).setFile h
        (some { o with pos := o.pos + data.length })
    | none => t
  | .seek h pos =>
    match t.files h with
    | some o => t.setFile h (some { o with pos := pos })
    | none => t
  | .close h => t.setFile h none
  | .unlink p => t.setNode p none
  | .rename p q => if p = q then t else (t.setNode q (t.node p)).setNode p none
  | .mkdir p => t.setNode p (some .dir)
  | .rmdir p => t.setNode p none

section

variable {t} [Zero B] {p : List N} {i : Inode N} {h : ℕ} {o : OpenFile (Inode N)}

theorem apply_create_file (hp : t.node p = some (.file i)) :
    t.apply (.create p h) = (t.setContent i []).setFile h (some ⟨i, 0, true, true⟩) := by
  simp only [apply, hp]

theorem apply_create_none (hp : t.node p = none) :
    t.apply (.create p h) = (t.alloc.setNode p (some (.file (.made t.next)))).setFile h
      (some ⟨.made t.next, 0, true, true⟩) := by
  simp only [apply, hp]

theorem apply_openFile {r w : Bool} (hp : t.node p = some (.file i)) :
    t.apply (.openFile p h r w) = t.setFile h (some ⟨i, 0, r, w⟩) := by
  simp only [apply, hp]

theorem apply_read {n : ℕ} (ho : t.files h = some o) :
    t.apply (.read h n) = t.setFile h (some { o with pos := o.pos + (t.readBytes o n).length }) := by
  simp only [apply, ho]

theorem apply_write {data : List B} (ho : t.files h = some o) :
    t.apply (.write h data) = (t.setContent o.inode (writeAt (t.content o.inode) o.pos data)).setFile h
      (some { o with pos := o.pos + data.length }) := by
  simp only [apply, ho]

theorem apply_seek {pos : ℕ} (ho : t.files h = some o) :
    t.apply (.seek h pos) = t.setFile h (some { o with pos := pos }) := by
  simp only [apply, ho]

end

/-- The tree with another inode for a file. -/
def relabel (i : Inode N) : Tree N B :=
  let f : Inode N → Inode N := Function.update id i (.made t.next)
  { node := fun p => (t.node p).map (Node.map f)
    content := Function.update t.content (.made t.next) (t.content i)
    files := fun h => (t.files h).map (OpenFile.map f)
    next := t.next + 1 }

section

variable {t} {i : Inode N} {p : List N}

theorem relabel_node_dir : (t.relabel i).node p = some .dir ↔ t.node p = some .dir := by
  rcases h : t.node p with _ | _ | j <;> simp [relabel, h, Node.map]

theorem relabel_node_none : (t.relabel i).node p = none ↔ t.node p = none :=
  Option.map_eq_none_iff

theorem relabel_files_none {h : ℕ} : (t.relabel i).files h = none ↔ t.files h = none :=
  Option.map_eq_none_iff

theorem relabel_node_self (h : t.node p = some (.file i)) :
    (t.relabel i).node p = some (.file (.made t.next)) := by
  simp [relabel, h, Node.map]

theorem relabel_files_self {h : ℕ} {o : OpenFile (Inode N)} (ho : t.files h = some o)
    (hi : o.inode = i) : (t.relabel i).files h = some { o with inode := .made t.next } := by
  simp [relabel, ho, OpenFile.map, hi]

end

/-- A new inode for a file that nobody has open and that is at one path. -/
theorem relabel_eq {i : Inode N} {p : List N} (hnode : ∀ q, t.node q = some (.file i) ↔ q = p)
    (hfiles : ∀ h o, t.files h = some o → o.inode ≠ i) :
    t.relabel i =
      (t.alloc.setNode p (some (.file (.made t.next)))).setContent (.made t.next) (t.content i) := by
  refine Tree.ext ?_ ?_ ?_ rfl
  · funext q
    change (t.node q).map _ = Function.update t.node p _ q
    by_cases hq : q = p
    · subst hq
      rw [Function.update_self, (hnode q).mpr rfl]
      simp [Node.map]
    · rw [Function.update_of_ne hq]
      rcases hn : t.node q with _ | _ | j
      · rfl
      · rfl
      · have hj : j ≠ i := by
          rintro rfl
          exact hq ((hnode q).mp hn)
        simp [Node.map, Function.update_of_ne hj]
  · change _ = Function.update (Function.update t.content _ _) _ _
    rw [Function.update_idem]
    rfl
  · funext h
    change (t.files h).map _ = t.files h
    rcases ho : t.files h with _ | o
    · rfl
    · simp [OpenFile.map, Function.update_of_ne (hfiles h o ho)]

/-- A new inode for a file that has been opened once. -/
theorem relabel_eq_open {i : Inode N} {p : List N} {h : ℕ} {o : OpenFile (Inode N)}
    (hnode : ∀ q, t.node q = some (.file i) ↔ q = p) (ho : t.files h = some o) (hi : o.inode = i)
    (hfiles : ∀ h' o', t.files h' = some o' → o'.inode = i → h' = h) :
    t.relabel i =
      ((t.alloc.setNode p (some (.file (.made t.next)))).setContent (.made t.next)
        (t.content i)).setFile h (some { o with inode := .made t.next }) := by
  have hclosed : ∀ h' o', (t.setFile h none).files h' = some o' → o'.inode ≠ i := by
    intro h' o' ho' hi'
    rw [setFile_files] at ho'
    by_cases hh : h' = h
    · rw [hh, Function.update_self] at ho'
      exact absurd ho' (by simp)
    · rw [Function.update_of_ne hh] at ho'
      exact hh (hfiles h' o' ho' hi')
  have hrest := relabel_eq (t.setFile h none) hnode hclosed
  have hnodes := congrArg Tree.node hrest
  have hcontents := congrArg Tree.content hrest
  refine Tree.ext hnodes hcontents ?_ rfl
  funext h'
  change (t.files h').map _ = Function.update t.files h _ h'
  by_cases hh : h' = h
  · rw [hh, Function.update_self, ho]
    simp [OpenFile.map, hi]
  · have hsame := congrFun (congrArg Tree.files hrest) h'
    change (Function.update t.files h none h').map _ = Function.update t.files h none h' at hsame
    rw [Function.update_of_ne hh] at hsame ⊢
    exact hsame

/-- The calls, one after another, succeed and lead from one tree to another. -/
def Performs [Zero B] : Tree N B → List (Call N B) → Tree N B → Prop
  | t, [], t' => t' = t
  | t, call :: calls, t' => t.Can call ∧ Performs (t.apply call) calls t'

end

/-! ## Well-formed trees -/

/-- What leads to something is a directory when its parent always is. -/
theorem above_of_parent {α : Type*} {f : List N → Option α} {x : α}
    (h : ∀ p, f p ≠ none → f p.dropLast = some x) {p q : List N} (hp : f p ≠ none) (hq : q <+: p)
    (hne : q ≠ p) : f q = some x := by
  induction p using List.reverseRecOn with
  | nil => exact absurd (List.prefix_nil.mp hq) hne
  | append_singleton r n ih =>
    have hr : f r = some x := by
      have hparent := h _ hp
      rwa [List.dropLast_concat] at hparent
    by_cases hqr : q = r
    · rw [hqr]
      exact hr
    · have hshort : q <+: r := (List.prefix_concat_iff.mp hq).resolve_left hne
      exact ih (by simp [hr]) hshort hqr

/-- There is a root, and everything else is in a directory. -/
structure Wf : Prop where
  root : t.node [] = some .dir
  parent : ∀ p, t.node p ≠ none → t.node p.dropLast = some .dir

namespace Wf

variable {t} {p : List N}

/-- Nothing is in what is not a directory. -/
theorem child_none (h : t.Wf) (hp : t.node p ≠ some .dir) {q : List N} (hq : q.dropLast = p) :
    t.node q = none := by
  by_contra hne
  exact hp (hq ▸ h.parent q hne)

theorem ne_root (h : t.Wf) (hp : t.node p ≠ some .dir) : p ≠ [] := by
  rintro rfl
  exact hp h.root

variable [DecidableEq N]

theorem setNode (h : t.Wf) {x : Option (Node (Inode N))} (hroot : p ≠ [])
    (hparent : x ≠ none → t.node p.dropLast = some .dir)
    (hchild : x ≠ some .dir → ∀ q, q ≠ p → q.dropLast = p → t.node q = none) : (t.setNode p x).Wf := by
  have hup : p.dropLast ≠ p := by
    intro heq
    have hlength := congrArg List.length heq
    rw [List.length_dropLast] at hlength
    have hpos := List.length_pos_iff.mpr hroot
    omega
  constructor
  · rw [Tree.setNode_node, Function.update_of_ne hroot.symm]
    exact h.root
  · intro q hq
    rw [Tree.setNode_node] at hq ⊢
    by_cases hqp : q = p
    · subst hqp
      rw [Function.update_self] at hq
      rw [Function.update_of_ne hup]
      exact hparent hq
    · rw [Function.update_of_ne hqp] at hq
      by_cases hdown : q.dropLast = p
      · rw [hdown, Function.update_self]
        by_contra hx
        exact hq (hchild hx q hqp hdown)
      · rw [Function.update_of_ne hdown]
        exact h.parent q hq

theorem relabel (h : t.Wf) (i : Inode N) : (t.relabel i).Wf := by
  refine ⟨relabel_node_dir.mpr h.root, fun p hp => relabel_node_dir.mpr (h.parent p ?_)⟩
  exact fun hnone => hp (relabel_node_none.mpr hnone)

theorem apply [Zero B] (h : t.Wf) {call : Call N B} (hcan : t.Can call) : (t.apply call).Wf := by
  cases call with
  | create p n =>
    obtain ⟨-, hparent, hdir⟩ := hcan
    rcases hp : t.node p with _ | _ | i
    · rw [Tree.apply_create_none hp]
      have halloc : t.alloc.Wf := ⟨h.root, h.parent⟩
      have hnew := halloc.setNode (x := some (.file (.made t.next))) (h.ne_root hdir)
        (fun _ => hparent) fun _ q _ hq => h.child_none hdir hq
      exact ⟨hnew.root, hnew.parent⟩
    · exact absurd hp hdir
    · rw [Tree.apply_create_file hp]
      exact ⟨h.root, h.parent⟩
  | openFile p n r w =>
    obtain ⟨-, i, hp⟩ := hcan
    rw [Tree.apply_openFile hp]
    exact ⟨h.root, h.parent⟩
  | read n k =>
    obtain ⟨o, ho, -⟩ := hcan
    rw [Tree.apply_read ho]
    exact ⟨h.root, h.parent⟩
  | write n data =>
    obtain ⟨o, ho, -⟩ := hcan
    rw [Tree.apply_write ho]
    exact ⟨h.root, h.parent⟩
  | seek n pos =>
    obtain ⟨o, ho⟩ := Option.ne_none_iff_exists'.mp hcan
    rw [Tree.apply_seek ho]
    exact ⟨h.root, h.parent⟩
  | close n => exact ⟨h.root, h.parent⟩
  | unlink p =>
    obtain ⟨i, hp⟩ := hcan
    have hdir : t.node p ≠ some .dir := by simp [hp]
    exact h.setNode (h.ne_root hdir) (fun hne => absurd rfl hne) fun _ q _ hq => h.child_none hdir hq
  | rename p q =>
    obtain ⟨⟨i, hp⟩, hparent, hq⟩ := hcan
    have hdir : t.node p ≠ some .dir := by simp [hp]
    simp only [Tree.apply]
    split
    · exact h
    · rename_i hpq
      have hset : (t.setNode q (t.node p)).Wf :=
        h.setNode (h.ne_root hq) (fun _ => hparent) fun _ r _ hr => h.child_none hq hr
      have hdir' : (t.setNode q (t.node p)).node p ≠ some .dir := by
        rw [Tree.setNode_node, Function.update_of_ne hpq]
        exact hdir
      exact hset.setNode (h.ne_root hdir) (fun hne => absurd rfl hne)
        fun _ r _ hr => hset.child_none hdir' hr
  | mkdir p =>
    exact h.setNode (h.ne_root (by simp [hcan.1])) (fun _ => hcan.2) fun hne => absurd rfl hne
  | rmdir p =>
    obtain ⟨hroot, -, hempty⟩ := hcan
    refine h.setNode hroot (fun hne => absurd rfl hne) fun _ q hqp hq => ?_
    have hq' : q ≠ [] := by
      rintro rfl
      exact hqp hq
    have hsplit := List.dropLast_concat_getLast hq'
    rw [hq] at hsplit
    exact hsplit ▸ hempty _

end Wf

end Tree

/-! ## Trees that differ in the numbers of their inodes -/

/-- The inode has been used before. -/
def Inode.Older {N : Type*} (next : ℕ) : Inode N → Prop
  | .ofBase _ => True
  | .made n => n < next

theorem Inode.Older.mono {N : Type*} {i : Inode N} {m n : ℕ} (h : i.Older m) (hmn : m ≤ n) :
    i.Older n := by
  cases i with
  | ofBase p => trivial
  | made k => exact Nat.lt_of_lt_of_le h hmn

theorem Inode.Older.ne_made {N : Type*} {i : Inode N} {n : ℕ} (h : i.Older n) : i ≠ .made n := by
  rintro rfl
  exact Nat.lt_irrefl n h

/-- `link` takes the inodes of `u` to those of `t`; it is one-to-one on the known ones, and
these are all that can be reached. -/
structure Like {N B : Type*} (link : Inode N → Inode N) (known : Set (Inode N)) (u t : Tree N B) :
    Prop where
  node : ∀ p, t.node p = (u.node p).map (Node.map link)
  files : ∀ h, t.files h = (u.files h).map (OpenFile.map link)
  content : ∀ i ∈ known, t.content (link i) = u.content i
  inj : Set.InjOn link known
  node_known : ∀ p i, u.node p = some (.file i) → i ∈ known
  files_known : ∀ h o, u.files h = some o → o.inode ∈ known
  older : ∀ i ∈ known, i.Older u.next
  link_older : ∀ i ∈ known, (link i).Older t.next

namespace Like

variable {N B : Type*} {link : Inode N → Inode N} {known : Set (Inode N)} {u t : Tree N B}

theorem node_dir (h : Like link known u t) {p : List N} :
    t.node p = some .dir ↔ u.node p = some .dir := by
  rw [h.node]
  rcases u.node p with _ | _ | i <;> simp [Node.map]

theorem node_none (h : Like link known u t) {p : List N} : t.node p = none ↔ u.node p = none := by
  rw [h.node]
  exact Option.map_eq_none_iff

variable {i : Inode N}

theorem node_file (h : Like link known u t) {p : List N} (hi : u.node p = some (.file i)) :
    t.node p = some (.file (link i)) := by
  rw [h.node, hi]
  rfl

theorem files_none (h : Like link known u t) {n : ℕ} : t.files n = none ↔ u.files n = none := by
  rw [h.files]
  exact Option.map_eq_none_iff

theorem files_some (h : Like link known u t) {n : ℕ} {o : OpenFile (Inode N)}
    (ho : u.files n = some o) : t.files n = some (o.map link) := by
  rw [h.files, ho]
  rfl

theorem refl (hnode : ∀ p i, t.node p = some (.file i) → i.Older t.next)
    (hfiles : ∀ h o, t.files h = some o → o.inode.Older t.next) :
    Like id { i | i.Older t.next } t t where
  node := by
    intro p
    rcases t.node p with _ | _ | i <;> rfl
  files := by
    intro h
    rcases t.files h with _ | o <;> rfl
  content := fun _ _ => rfl
  inj := Function.injective_id.injOn
  node_known := hnode
  files_known := hfiles
  older := fun _ hi => hi
  link_older := fun _ hi => hi

theorem setFile (h : Like link known u t) (n : ℕ) {o : Option (OpenFile (Inode N))}
    (ho : ∀ f, o = some f → f.inode ∈ known) :
    Like link known (u.setFile n o) (t.setFile n (o.map (OpenFile.map link))) where
  node := h.node
  files := by
    intro m
    by_cases hm : m = n
    · subst hm
      simp
    · simp [Function.update_of_ne hm, h.files]
  content := h.content
  inj := h.inj
  node_known := h.node_known
  files_known := by
    intro m f hf
    by_cases hm : m = n
    · subst hm
      rw [Tree.setFile_files, Function.update_self] at hf
      exact ho f hf
    · rw [Tree.setFile_files, Function.update_of_ne hm] at hf
      exact h.files_known m f hf
  older := h.older
  link_older := h.link_older

theorem openAs (h : Like link known u t) (n : ℕ) {o : OpenFile (Inode N)} (ho : o.inode ∈ known) :
    Like link known (u.setFile n (some o)) (t.setFile n (some (o.map link))) := by
  refine h.setFile n (o := some o) ?_
  rintro _ ⟨⟩
  exact ho

/-- A call that succeeds on a tree succeeds on a tree like it. -/
theorem can {call : Call N B} (h : Like link known u t) (hcan : u.Can call) : t.Can call := by
  cases call with
  | create p n =>
    exact ⟨h.files_none.mpr hcan.1, h.node_dir.mpr hcan.2.1, fun hdir => hcan.2.2 (h.node_dir.mp hdir)⟩
  | openFile p n r w =>
    obtain ⟨hfree, i, hi⟩ := hcan
    exact ⟨h.files_none.mpr hfree, link i, h.node_file hi⟩
  | read n k =>
    obtain ⟨o, ho, hmode⟩ := hcan
    exact ⟨_, h.files_some ho, hmode⟩
  | write n data =>
    obtain ⟨o, ho, hmode⟩ := hcan
    exact ⟨_, h.files_some ho, hmode⟩
  | seek n pos => exact fun hnone => hcan (h.files_none.mp hnone)
  | close n => exact fun hnone => hcan (h.files_none.mp hnone)
  | unlink p =>
    obtain ⟨i, hi⟩ := hcan
    exact ⟨link i, h.node_file hi⟩
  | rename p q =>
    obtain ⟨⟨i, hi⟩, hparent, hdir⟩ := hcan
    exact ⟨⟨link i, h.node_file hi⟩, h.node_dir.mpr hparent, fun hq => hdir (h.node_dir.mp hq)⟩
  | mkdir p => exact ⟨h.node_none.mpr hcan.1, h.node_dir.mpr hcan.2⟩
  | rmdir p => exact ⟨hcan.1, h.node_dir.mpr hcan.2.1, fun n => h.node_none.mpr (hcan.2.2 n)⟩

variable [DecidableEq N]

theorem setNode (h : Like link known u t) (p : List N) {x : Option (Node (Inode N))}
    (hx : ∀ i, x = some (.file i) → i ∈ known) :
    Like link known (u.setNode p x) (t.setNode p (x.map (Node.map link))) where
  node := by
    intro q
    by_cases hq : q = p
    · subst hq
      simp
    · simp [Function.update_of_ne hq, h.node]
  files := h.files
  content := h.content
  inj := h.inj
  node_known := by
    intro q i hi
    by_cases hq : q = p
    · subst hq
      rw [Tree.setNode_node, Function.update_self] at hi
      exact hx i hi
    · rw [Tree.setNode_node, Function.update_of_ne hq] at hi
      exact h.node_known q i hi
  files_known := h.files_known
  older := h.older
  link_older := h.link_older

theorem setContent (h : Like link known u t) (hi : i ∈ known) (content : List B) :
    Like link known (u.setContent i content) (t.setContent (link i) content) where
  node := h.node
  files := h.files
  content := by
    intro j hj
    by_cases hij : j = i
    · subst hij
      simp
    · have hne : link j ≠ link i := fun heq => hij (h.inj hj hi heq)
      simp [Function.update_of_ne hij, Function.update_of_ne hne, h.content j hj]
  inj := h.inj
  node_known := h.node_known
  files_known := h.files_known
  older := h.older
  link_older := h.link_older

/-- A link that takes new inodes to new inodes. -/
theorem update_link {i : Inode N} (h : Like link known u t) (hi : i ∈ known) (j : Inode N) :
    Function.update link (.made u.next) j i = link i :=
  Function.update_of_ne (h.older i hi).ne_made _ _

theorem alloc (h : Like link known u t) :
    Like (Function.update link (.made u.next) (.made t.next)) (insert (.made u.next) known)
      u.alloc t.alloc := by
  have hkept := fun i hi => @update_link N B link known u t _ i h hi (.made t.next)
  constructor
  case node =>
    intro p
    have hp := h.node p
    change t.node p = (u.node p).map (Node.map (Function.update link (.made u.next) (.made t.next)))
    rw [hp]
    rcases hu : u.node p with _ | _ | i
    · rfl
    · rfl
    · exact congrArg (fun j => some (Node.file j)) (hkept i (h.node_known p i hu)).symm
  case files =>
    intro n
    have hn := h.files n
    change t.files n = (u.files n).map (OpenFile.map _)
    rw [hn]
    rcases hu : u.files n with _ | o
    · rfl
    · simp only [Option.map_some, OpenFile.map, hkept o.inode (h.files_known n o hu)]
  case content =>
    rintro i (rfl | hi)
    · rw [Function.update_self]
      simp [Tree.alloc]
    · rw [hkept i hi]
      simp only [Tree.alloc, Tree.setContent_content]
      rw [Function.update_of_ne (h.older i hi).ne_made,
        Function.update_of_ne (h.link_older i hi).ne_made]
      exact h.content i hi
  case inj =>
    rintro i (rfl | hi) j (rfl | hj) heq
    · rfl
    · rw [Function.update_self, hkept j hj] at heq
      exact absurd heq.symm (h.link_older j hj).ne_made
    · rw [Function.update_self, hkept i hi] at heq
      exact absurd heq (h.link_older i hi).ne_made
    · rw [hkept i hi, hkept j hj] at heq
      exact h.inj hi hj heq
  case node_known => exact fun p i hi => Set.mem_insert_of_mem _ (h.node_known p i hi)
  case files_known => exact fun n o ho => Set.mem_insert_of_mem _ (h.files_known n o ho)
  case older =>
    rintro i (rfl | hi)
    · exact Nat.lt_succ_self _
    · exact (h.older i hi).mono (Nat.le_succ _)
  case link_older =>
    rintro i (rfl | hi)
    · rw [Function.update_self]
      exact Nat.lt_succ_self _
    · rw [hkept i hi]
      exact (h.link_older i hi).mono (Nat.le_succ _)

/-- A file of the first tree gets a new inode. -/
theorem relabel (h : Like link known u t) (hi : i ∈ known) :
    Like (Function.update link (.made u.next) (link i)) (insert (.made u.next) (known \ {i}))
      (u.relabel i) t := by
  have hkept := fun j hj => @update_link N B link known u t _ j h hj (link i)
  -- the new link after the new label is the old link
  have hlink : ∀ j ∈ known, Function.update link (.made u.next) (link i)
      (Function.update id i (.made u.next) j) = link j := by
    intro j hj
    by_cases hij : j = i
    · subst hij
      rw [Function.update_self, Function.update_self]
    · rw [Function.update_of_ne hij]
      exact hkept j hj
  have hlabel : ∀ j ∈ known, Function.update id i (.made u.next) j ∈
      insert (.made u.next) (known \ {i}) := by
    intro j hj
    by_cases hij : j = i
    · rw [hij, Function.update_self]
      exact Set.mem_insert _ _
    · rw [Function.update_of_ne hij]
      exact Set.mem_insert_of_mem _ ⟨hj, hij⟩
  constructor
  case node =>
    intro p
    rw [h.node p]
    rcases hu : u.node p with _ | _ | j
    · simp [Tree.relabel, hu]
    · simp [Tree.relabel, hu, Node.map]
    · simp [Tree.relabel, hu, Node.map, hlink j (h.node_known p j hu)]
  case files =>
    intro n
    rw [h.files n]
    rcases hu : u.files n with _ | o
    · simp [Tree.relabel, hu]
    · simp [Tree.relabel, hu, OpenFile.map, hlink o.inode (h.files_known n o hu)]
  case content =>
    rintro j (rfl | ⟨hj, -⟩)
    · simp [Tree.relabel, h.content i hi]
    · rw [hkept j hj]
      simp [Tree.relabel, Function.update_of_ne (h.older j hj).ne_made, h.content j hj]
  case inj =>
    rintro j (rfl | ⟨hj, hji⟩) k (rfl | ⟨hk, hki⟩) heq
    · rfl
    · rw [Function.update_self, hkept k hk] at heq
      exact absurd (h.inj hi hk heq).symm hki
    · rw [Function.update_self, hkept j hj] at heq
      exact absurd (h.inj hj hi heq) hji
    · rw [hkept j hj, hkept k hk] at heq
      exact h.inj hj hk heq
  case node_known =>
    intro p j hj
    rcases hu : u.node p with _ | _ | k
    · simp [Tree.relabel, hu] at hj
    · simp [Tree.relabel, hu, Node.map] at hj
    · simp only [Tree.relabel, hu, Option.map_some, Node.map, Option.some.injEq,
        Node.file.injEq] at hj
      rw [← hj]
      exact hlabel k (h.node_known p k hu)
  case files_known =>
    intro n o ho
    rcases hu : u.files n with _ | f
    · simp [Tree.relabel, hu] at ho
    · simp only [Tree.relabel, hu, Option.map_some, Option.some.injEq] at ho
      rw [← ho]
      exact hlabel f.inode (h.files_known n f hu)
  case older =>
    rintro j (rfl | ⟨hj, -⟩)
    · exact Nat.lt_succ_self _
    · exact (h.older j hj).mono (Nat.le_succ _)
  case link_older =>
    rintro j (rfl | ⟨hj, -⟩)
    · rw [Function.update_self]
      exact h.link_older i hi
    · rw [hkept j hj]
      exact h.link_older j hj

/-- **A call that succeeds on a tree does the same on every tree like it.** -/
theorem apply [Zero B] {call : Call N B} (h : Like link known u t) (hcan : u.Can call) :
    ∃ link' known', Like link' known' (u.apply call) (t.apply call) := by
  cases call with
  | create p n =>
    rcases hp : u.node p with _ | _ | i
    · rw [Tree.apply_create_none hp, Tree.apply_create_none (h.node_none.mpr hp)]
      have hnode := h.alloc.setNode p (x := some (.file (.made u.next))) ?_
      · have hnew := hnode.openAs n (o := ⟨.made u.next, 0, true, true⟩) (Set.mem_insert _ _)
        simp only [Option.map_some, Node.map, OpenFile.map, Function.update_self] at hnew
        exact ⟨_, _, hnew⟩
      · rintro _ ⟨⟩
        exact Set.mem_insert _ _
    · exact absurd hp hcan.2.2
    · have hi := h.node_known p i hp
      rw [Tree.apply_create_file hp, Tree.apply_create_file (h.node_file hp)]
      exact ⟨link, known, (h.setContent hi []).openAs n hi⟩
  | openFile p n r w =>
    obtain ⟨-, i, hp⟩ := hcan
    rw [Tree.apply_openFile hp, Tree.apply_openFile (h.node_file hp)]
    exact ⟨link, known, h.openAs n (h.node_known p i hp)⟩
  | read n k =>
    obtain ⟨o, ho, -⟩ := hcan
    have hi := h.files_known n o ho
    have hbytes : t.readBytes (o.map link) k = u.readBytes o k := by
      unfold Tree.readBytes
      rw [OpenFile.map, h.content o.inode hi]
    rw [Tree.apply_read ho, Tree.apply_read (h.files_some ho), hbytes]
    exact ⟨link, known, h.openAs n hi⟩
  | write n data =>
    obtain ⟨o, ho, -⟩ := hcan
    have hi := h.files_known n o ho
    rw [Tree.apply_write ho, Tree.apply_write (h.files_some ho)]
    have hcontent : t.content (o.map link).inode = u.content o.inode := h.content o.inode hi
    rw [hcontent]
    exact ⟨link, known, (h.setContent hi _).openAs n hi⟩
  | seek n pos =>
    obtain ⟨o, ho⟩ := Option.ne_none_iff_exists'.mp hcan
    have hi := h.files_known n o ho
    rw [Tree.apply_seek ho, Tree.apply_seek (h.files_some ho)]
    exact ⟨link, known, h.openAs n hi⟩
  | close n => exact ⟨link, known, h.setFile n (o := none) fun _ hf => by cases hf⟩
  | unlink p => exact ⟨link, known, h.setNode p (x := none) fun _ hx => by cases hx⟩
  | rename p q =>
    obtain ⟨⟨i, hp⟩, -, -⟩ := hcan
    simp only [Tree.apply]
    by_cases hpq : p = q
    · rw [if_pos hpq, if_pos hpq]
      exact ⟨link, known, h⟩
    · rw [if_neg hpq, if_neg hpq, h.node p]
      refine ⟨link, known, (h.setNode q ?_).setNode p (x := none) fun _ hx => by cases hx⟩
      exact fun j hj => h.node_known p j hj
  | mkdir p => exact ⟨link, known, h.setNode p (x := some .dir) fun _ hx => by cases hx⟩
  | rmdir p => exact ⟨link, known, h.setNode p (x := none) fun _ hx => by cases hx⟩

end Like

end FileTree
