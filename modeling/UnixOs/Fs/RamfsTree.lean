import Mathlib.Data.List.Nodup
import UnixOs.Fs.Ramfs
import UnixOs.Lib.Forest
import UnixOs.Lib.Run

/-!
# The names of ramfs form a tree

- `IsTree`: what it means for the linked inodes to form a tree below the root;
- `Tree`: the invariant, with what the operations need to know besides;
- `Tree.place`, `Tree.remove`: a node hung below a directory, and a node without
  children taken away, whatever operation does it;
- `isTree_of_stepOk`: along every run in which no name is used twice in a
  directory and no directory is moved below itself, the names form a tree.
-/

namespace UnixOs

open List Forest

namespace Ramfs

variable (k : Ramfs)

/-- A directory, or a file that has a name. A directory goes with its name, and a
file without one stays while it is open. -/
def Linked (i : Nat) : Prop := k.type i = .dir ∨ k.type i = .file ∧ k.nlink i ≠ 0

/-- The linked inodes form a tree below the root, without two equal names in a
directory. -/
structure IsTree : Prop where
  unique : ∀ i, k.Linked i → i ≠ ramfsRootIno → k.type (k.parent i) = .dir ∧
    (k.children (k.parent i)).count i = 1 ∧
    ∀ d, k.type d = .dir → i ∈ k.children d → d = k.parent i
  reach : ∀ i, k.Linked i → Reach k.children ramfsRootIno i
  names : ∀ d, k.type d = .dir → ((k.children d).map k.name).Nodup

end Ramfs

/-- The operations on names. -/
inductive RamfsOp where
  | mkdir (parent : Nat) (name : FileName)
  | create (parent : Nat) (name : FileName)
  | unlink (parent : Nat) (name : FileName)
  | rmdir (parent : Nat) (name : FileName)
  | rename (oldParent : Nat) (oldName : FileName) (newParent : Nat) (newName : FileName)

namespace Ramfs

def step (k : Ramfs) : RamfsOp → Ramfs
  | .mkdir parent name => (k.createDir parent name).1
  | .create parent name => (k.createFile parent name).1
  | .unlink parent name => (k.opUnlink parent name).1
  | .rmdir parent name => (k.opRmdir parent name).1
  | .rename oldParent oldName newParent newName =>
    (k.opRename oldParent oldName newParent newName).1

/-- No child of `d` other than `x` has the name that `name` is stored as. -/
def FreshName (k : Ramfs) (d : Nat) (name : FileName) (x : Nat) : Prop :=
  ∀ c ∈ k.children d, c ≠ x → k.name c ≠ storedName name

/-- `ramfs_add_child(d, x)` succeeds once `x` has been taken from `old`. -/
def HasRoom (k : Ramfs) (d old : Nat) : Prop :=
  k.type d = .dir ∧ ((k.children d).length < ramfsMaxChildren ∨ d = old)

instance {k : Ramfs} {d x : Nat} {name : FileName} : Decidable (k.FreshName d name x) :=
  inferInstanceAs (Decidable (∀ c ∈ k.children d, c ≠ x → k.name c ≠ storedName name))

instance {k : Ramfs} {d old : Nat} : Decidable (k.HasRoom d old) :=
  inferInstanceAs (Decidable (_ ∧ _))

/-- A name is not created where it exists, long names counting as they are
stored; a rename goes to a new name of the directory it ends up in, and a node is
not moved below itself. -/
def StepOk (k : Ramfs) : RamfsOp → Prop
  | .mkdir parent name => name.length < ramfsMaxName ∨ k.FreshName parent name 0
  | .create parent name => k.FreshName parent name 0
  | .rename oldParent oldName newParent newName =>
    let x := k.lookupChild oldParent oldName
    (k.HasRoom newParent oldParent →
      k.FreshName newParent newName x ∧ ¬ Reach k.children x newParent) ∧
    (¬ k.HasRoom newParent oldParent → k.FreshName oldParent newName x)
  | _ => True

/-! ## The invariant -/

/-- The shape of the names. With `distinct` no two names in a directory are equal,
and with `connected` every name is below the root; `rename` looks at neither. -/
structure Shape (distinct connected : Prop) (k : Ramfs) : Prop where
  zero : k.type 0 = .free
  root : k.type ramfsRootIno = .dir
  top : k.parent ramfsRootIno = 0
  child : ∀ {d c}, c ∈ k.children d →
    k.type d = .dir ∧ k.parent c = d ∧ k.Linked c ∧ c ≠ ramfsRootIno
  nodup : ∀ d, (k.children d).Nodup
  names : distinct → ∀ d, ((k.children d).map k.name).Nodup
  linked : ∀ {i}, k.Linked i → i ≠ ramfsRootIno → i ∈ k.children (k.parent i)
  reach : connected → ∀ {i}, k.Linked i → Reach k.children ramfsRootIno i
  links : ∀ {i}, k.type i = .file → k.nlink i ≤ 1
  bound : ∀ {i}, k.type i ≠ .free → i < ramfsMaxInodes
  full : ∀ d, (k.children d).length ≤ ramfsMaxChildren

/-- The names are a tree below the root. -/
abbrev Tree (distinct : Prop) (k : Ramfs) : Prop := Shape distinct True k

variable {distinct connected : Prop} {k k' : Ramfs} {d x p : Nat}

theorem Tree.isTree (h : Tree True k) : k.IsTree where
  unique i hi hr := by
    have hmem := h.linked hi hr
    refine ⟨(h.child hmem).1, count_eq_one_of_mem (h.nodup _) hmem, fun d _ hd => ?_⟩
    exact (h.child hd).2.1.symm
  reach _ hi := h.reach trivial hi
  names d _ := h.names trivial d

/-- Apart from `x` and from the lists of children, the tables are the same. -/
def SameAway (x : Nat) (k k' : Ramfs) : Prop :=
  ∀ j, j ≠ x → k'.inode j = { k.inode j with children := k'.children j }

namespace SameAway

theorem of_children {f : Nat → List Nat}
    (h : ∀ j, j ≠ x → k'.inode j = { k.inode j with children := f j }) : SameAway x k k' := by
  intro j hj
  rw [children, h j hj]

variable {i : Nat} (h : SameAway x k k') (hi : i ≠ x)

include h hi

theorem type : k'.type i = k.type i := (congrArg RamfsInode.type (h i hi) :)

theorem nlink : k'.nlink i = k.nlink i := (congrArg RamfsInode.nlink (h i hi) :)

theorem name : k'.name i = k.name i := (congrArg RamfsInode.name (h i hi) :)

theorem parent : k'.parent i = k.parent i := (congrArg RamfsInode.parent (h i hi) :)

theorem linked : k'.Linked i ↔ k.Linked i := by
  unfold Linked
  rw [h.type hi, h.nlink hi]

end SameAway

namespace Shape

section

variable (h : Shape distinct connected k)
include h

theorem zero_not_child : 0 ∉ k.children d := by
  intro h0
  have := (h.child h0).2.2.1
  unfold Linked at this
  rw [h.zero] at this
  obtain h | h := this
  · cases h
  · cases h.1

/-- A node is not below its own children. -/
theorem acyclic (hcon : connected) (hx : x ∈ k.children d) : ¬ Reach k.children x d := by
  have hd : k.Linked d := .inl (h.child hx).1
  exact (h.reach hcon hd).acyclic (fun hc => (h.child hc).2.1)
    (fun _ hr => (h.child hr).2.2.2 rfl) x hx

theorem map_name_erase (hs : SameAway x k k') :
    ((k.children d).erase x).map k'.name = ((k.children d).erase x).map k.name := by
  refine map_congr_left fun c hc => hs.name ?_
  exact ((h.nodup d).mem_erase_iff.1 hc).1

/-- `x`, which is new or was taken from its place, is hung below `p` under a name
that is new there. -/
theorem place (hs : SameAway x k k') (hx0 : x ≠ 0)
    (hxr : x ≠ ramfsRootIno) (hxbound : x < ramfsMaxInodes) (hp : k.type p = .dir)
    (hroom : ((k.children p).erase x).length < ramfsMaxChildren)
    (hxp : connected → ¬ Reach k.children x p)
    (hfresh : distinct → ∀ c ∈ k.children p, c ≠ x → k.name c ≠ k'.name x)
    (hkind : k'.type x = .dir ∨ k'.type x = .file ∧ k'.nlink x = 1) (hparent : k'.parent x = p)
    (hchildren : ∀ d, k'.children d = (k.children d).erase x ++ if d = p then [x] else [])
    (hmoved : k.Linked x ∧ k'.type x = k.type x ∨ ¬ k.Linked x ∧ k.children x = []) :
    Shape distinct connected k' := by
  have hlinked : k'.Linked x := hkind.imp_right fun hf => ⟨hf.1, by omega⟩
  have hmem {d c : Nat} : c ∈ k'.children d ↔ (c ≠ x ∧ c ∈ k.children d) ∨ (c = x ∧ d = p) := by
    rw [hchildren, mem_append, (h.nodup d).mem_erase_iff]
    refine or_congr Iff.rfl ?_
    split
    · next hd => simp [hd]
    · next hd => simp [hd]
  -- `x` keeps its children, so a node that has some stays a directory
  have hdir {d : Nat} (hd : k.type d = .dir) (hc : k.children d ≠ []) : k'.type d = .dir := by
    obtain rfl | hdx := eq_or_ne d x
    · obtain ⟨_, hsame⟩ | ⟨_, hleaf⟩ := hmoved
      · rw [hsame]
        exact hd
      · exact absurd hleaf hc
    · rw [hs.type hdx]
      exact hd
  have hkeep (d c : Nat) (hc : c ≠ x) (hd : c ∈ k.children d) : c ∈ k'.children d :=
    hmem.2 (.inl ⟨hc, hd⟩)
  have hnew : x ∈ k'.children p := hmem.2 (.inr ⟨rfl, rfl⟩)
  have hp' : k'.type p = .dir := by
    obtain rfl | hpx := eq_or_ne p x
    · obtain ⟨_, hsame⟩ | ⟨hno, _⟩ := hmoved
      · exact hsame.trans hp
      · exact absurd (.inl hp) hno
    · exact (hs.type hpx).trans hp
  constructor
  · rw [hs.type hx0.symm]
    exact h.zero
  · rw [hs.type hxr.symm]
    exact h.root
  · rw [hs.parent hxr.symm]
    exact h.top
  · intro d c hc
    obtain ⟨hcx, hc⟩ | ⟨rfl, rfl⟩ := hmem.1 hc
    · obtain ⟨h1, h2, h3, h4⟩ := h.child hc
      exact ⟨hdir h1 (ne_nil_of_mem hc), (hs.parent hcx).trans h2, (hs.linked hcx).2 h3, h4⟩
    · exact ⟨hp', hparent, hlinked, hxr⟩
  · intro d
    rw [hchildren]
    have hnd := (h.nodup d).erase x
    split
    · refine nodup_append.2 ⟨hnd, nodup_singleton x, fun c hc c' hc' he => ?_⟩
      rw [he, mem_singleton.1 hc'] at hc
      exact (h.nodup d).not_mem_erase hc
    · rwa [append_nil]
  · intro hdis d
    have hnd : (((k.children d).erase x).map k.name).Nodup :=
      (h.names hdis d).sublist ((erase_sublist).map k.name)
    rw [hchildren, map_append, h.map_name_erase hs]
    split
    · next hdp =>
      subst hdp
      refine nodup_append.2 ⟨hnd, nodup_singleton _, fun nm' hnm nm'' hnm'' he => ?_⟩
      obtain ⟨c, hc, rfl⟩ := mem_map.1 hnm
      obtain ⟨hcx, hc⟩ := (h.nodup d).mem_erase_iff.1 hc
      rw [mem_singleton.1 hnm''] at he
      exact hfresh hdis c hc hcx he
    · simpa using hnd
  · intro i hi hir
    by_cases hix : i = x
    · rw [hix, hparent]
      exact hnew
    · rw [hs.parent hix]
      exact hkeep _ i hix (h.linked ((hs.linked hix).1 hi) hir)
  · intro hcon i hi
    have hproot : Reach k.children ramfsRootIno p := h.reach hcon (.inl hp)
    by_cases hix : i = x
    · rw [hix]
      exact .child (hproot.avoid hkeep (hxp hcon)) hnew
    · exact hproot.move hkeep (hxp hcon) hnew (h.reach hcon ((hs.linked hix).1 hi))
  · intro i hi
    obtain rfl | hix := eq_or_ne i x
    · obtain hd | hf := hkind
      · rw [hd] at hi
        cases hi
      · exact hf.2.le
    · rw [hs.nlink hix]
      exact h.links ((hs.type hix).symm.trans hi)
  · intro i hi
    by_cases hix : i = x
    · exact hix ▸ hxbound
    · rw [hs.type hix] at hi
      exact h.bound hi
  · intro d
    have hle : ((k.children d).erase x).length ≤ (k.children d).length := length_erase_le
    have hd := h.full d
    rw [hchildren, length_append]
    split
    · next hdp =>
      subst hdp
      rw [length_singleton]
      omega
    · rw [length_nil]
      omega

/-- `x`, which has no children, is taken from its parent and is linked no
longer. -/
theorem remove (hx : x ∈ k.children d) (hleaf : k.children x = [])
    (hgone : ¬ k'.Linked x) (hs : SameAway x k k')
    (hchildren : ∀ d, k'.children d = (k.children d).erase x) : Shape distinct connected k' := by
  obtain ⟨-, -, hxl, hxr⟩ := h.child hx
  have hmem {d c : Nat} : c ∈ k'.children d ↔ c ≠ x ∧ c ∈ k.children d := by
    rw [hchildren, (h.nodup d).mem_erase_iff]
  have hkeep (d c : Nat) (hc : c ≠ x) (hd : c ∈ k.children d) : c ∈ k'.children d := hmem.2 ⟨hc, hd⟩
  have hx0 : x ≠ 0 := by
    rintro rfl
    exact h.zero_not_child hx
  constructor
  · rw [hs.type hx0.symm]
    exact h.zero
  · rw [hs.type hxr.symm]
    exact h.root
  · rw [hs.parent hxr.symm]
    exact h.top
  · intro d c hc
    obtain ⟨hcx, hc⟩ := hmem.1 hc
    obtain ⟨h1, h2, h3, h4⟩ := h.child hc
    have hdx : d ≠ x := by
      rintro rfl
      rw [hleaf] at hc
      cases hc
    exact ⟨(hs.type hdx).trans h1, (hs.parent hcx).trans h2, (hs.linked hcx).2 h3, h4⟩
  · intro d
    rw [hchildren]
    exact (h.nodup d).erase x
  · intro hdis d
    rw [hchildren, h.map_name_erase hs]
    exact (h.names hdis d).sublist ((erase_sublist).map k.name)
  · intro i hi hir
    have hix : i ≠ x := fun e => hgone (e ▸ hi)
    rw [hs.parent hix]
    exact hkeep _ i hix (h.linked ((hs.linked hix).1 hi) hir)
  · intro hcon i hi
    have hix : i ≠ x := fun e => hgone (e ▸ hi)
    exact (h.reach hcon ((hs.linked hix).1 hi)).cut_leaf hkeep hleaf hix
  · intro i hi
    obtain rfl | hix := eq_or_ne i x
    · -- a file that is linked no longer has no link left
      by_contra hn
      exact hgone (.inr ⟨hi, by omega⟩)
    · rw [hs.nlink hix]
      exact h.links ((hs.type hix).symm.trans hi)
  · intro i hi
    by_cases hix : i = x
    · refine hix ▸ h.bound fun hf => ?_
      unfold Linked at hxl
      rw [hf] at hxl
      obtain hd | hf := hxl
      · cases hd
      · cases hf.1
    · rw [hs.type hix] at hi
      exact h.bound hi
  · intro d
    rw [hchildren]
    exact length_erase_le.trans (h.full d)

/-- Stores that no name depends on. -/
theorem congr (hchildren : k'.children = k.children)
    (hdir : ∀ i, k'.type i = .dir ↔ k.type i = .dir) (hlinked : ∀ i, k'.Linked i ↔ k.Linked i)
    (hparent : ∀ i, k.Linked i → k'.parent i = k.parent i)
    (hname : ∀ i, k.Linked i → k'.name i = k.name i)
    (hlinks : ∀ i, k'.type i = .file → k'.nlink i ≤ 1)
    (hused : ∀ i, k'.type i ≠ .free → k.type i ≠ .free) : Shape distinct connected k' := by
  constructor
  · by_contra hne
    exact hused 0 hne h.zero
  · exact (hdir _).2 h.root
  · rw [hparent _ (.inl h.root)]
    exact h.top
  · intro d c hc
    rw [hchildren] at hc
    obtain ⟨h1, h2, h3, h4⟩ := h.child hc
    exact ⟨(hdir d).2 h1, (hparent c h3).trans h2, (hlinked c).2 h3, h4⟩
  · rw [hchildren]
    exact h.nodup
  · intro hdis d
    rw [hchildren, map_congr_left fun c hc => hname c (h.child hc).2.2.1]
    exact h.names hdis d
  · intro i hi hr
    rw [hchildren, hparent i ((hlinked i).1 hi)]
    exact h.linked ((hlinked i).1 hi) hr
  · intro hcon i hi
    rw [hchildren]
    exact h.reach hcon ((hlinked i).1 hi)
  · exact hlinks _
  · intro i hi
    exact h.bound (hused i hi)
  · rw [hchildren]
    exact h.full

/-- What is not a directory has no children. -/
theorem children_of_not_dir (hx : k.type x ≠ .dir) : k.children x = [] := by
  cases hc : k.children x with
  | nil => rfl
  | cons c t => exact absurd (h.child (hc ▸ mem_cons_self : c ∈ k.children x)).1 hx

end

theorem not_linked_of_free (hx : k.type x = .free) : ¬ k.Linked x := by
  rintro (h | h)
  · rw [hx] at h
    cases h
  · rw [hx] at h
    cases h.1

end Shape

/-! ## The operations -/

variable {i j : Nat} {nm : FileName}

namespace Shape

section

variable (h : Shape distinct connected k)
include h

theorem child_bound {c : Nat} (hc : c ∈ k.children d) : c < ramfsMaxInodes :=
  h.bound fun hf => not_linked_of_free hf (h.child hc).2.2.1

/-- The children are inodes of the table, and only one directory lists them. -/
theorem owned (d : Nat) :
    ∀ c ∈ k.children d, c < ramfsMaxInodes ∧ ∀ e, c ∈ k.children e → e = d := fun _ hc =>
  ⟨h.child_bound hc, fun _ he => (h.child he).2.1.symm.trans (h.child hc).2.1⟩

/-- A new node in a directory with room. -/
theorem add_new (hd : k.type d = .dir)
    (hroom : (k.children d).length < ramfsMaxChildren) (hfresh : distinct → k.FreshName d nm 0)
    (hslot : k.freeSlot = some i) {type : InodeType} {nlink : Nat} {k' : Ramfs}
    (hkind : type = .dir ∨ type = .file ∧ nlink = 1)
    (hk' : ∀ j, k'.inode j = if j = i then ⟨type, nlink, storedName nm, d, []⟩
      else { k.inode j with children := k.children j ++ if j = d then [i] else [] }) :
    Shape distinct connected k' := by
  obtain ⟨hfree, hi2, hi⟩ := freeSlot_spec hslot
  have hnl : ¬ k.Linked i := not_linked_of_free hfree
  have hnot (d : Nat) : i ∉ k.children d := fun hc => hnl (h.child hc).2.2.1
  have hleaf : k.children i = [] := h.children_of_not_dir (by rw [hfree]; decide)
  have hid := freeSlot_ne hslot hd
  have hx : k'.inode i = ⟨type, nlink, storedName nm, d, []⟩ := (hk' i).trans (if_pos rfl)
  have hsame (j : Nat) (hj : j ≠ i) := (hk' j).trans (if_neg hj)
  have hroot : ramfsRootIno = 1 := rfl
  refine h.place (.of_children hsame) (by omega) (by omega) hi hd
    (by rwa [erase_of_not_mem (hnot d)]) (fun _ hr => hid (hr.of_leaf hleaf)) ?_
    (by rwa [Ramfs.type, Ramfs.nlink, hx]) (congrArg RamfsInode.parent hx) ?_ (.inr ⟨hnl, hleaf⟩)
  · intro hdis c hc _
    rw [show k'.name i = storedName nm from congrArg RamfsInode.name hx]
    refine hfresh hdis c hc ?_
    rintro rfl
    exact h.zero_not_child hc
  · intro j
    rw [erase_of_not_mem (hnot j)]
    by_cases hj : j = i
    · rw [hj, hleaf, if_neg hid.symm]
      exact congrArg RamfsInode.children hx
    · exact congrArg RamfsInode.children (hsame j hj)

/-- An inode without a name is zeroed. -/
theorem drop_unlinked {k' : Ramfs} (hi : ¬ k.Linked i)
    (hk' : ∀ j, k'.inode j = if j = i then .zeroed else k.inode j) :
    Shape distinct connected k' := by
  have hleaf : k.children i = [] := h.children_of_not_dir fun hd => hi (.inl hd)
  have hsame {j : Nat} (hj : j ≠ i) : k'.inode j = k.inode j := (hk' j).trans (if_neg hj)
  have hgone : k'.type i = .free := by
    rw [type, hk', if_pos rfl]
    rfl
  have hne {j : Nat} (hj : k.Linked j) : j ≠ i := by
    rintro rfl
    exact hi hj
  have hne' {j : Nat} (hj : k'.type j ≠ .free) : j ≠ i := by
    rintro rfl
    exact hj hgone
  refine h.congr (funext fun j => ?_) (fun j => ⟨fun hd => ?_, fun hd => ?_⟩)
    (fun j => ⟨fun hl => ?_, fun hl => ?_⟩)
      (fun j hj => congrArg RamfsInode.parent (hsame (hne hj)))
    (fun j hj => congrArg RamfsInode.name (hsame (hne hj))) (fun j hf => ?_) fun j hj => ?_
  · by_cases hj : j = i
    · rw [hj, hleaf, children, hk', if_pos rfl]
      rfl
    · exact congrArg RamfsInode.children (hsame hj)
  · have hj := hne' (by rw [hd]; decide)
    rwa [type, hsame hj] at hd
  · rwa [type, hsame (hne (.inl hd))]
  · have hj := hne' fun hf => not_linked_of_free hf hl
    unfold Linked type nlink at hl ⊢
    rwa [hsame hj] at hl
  · have hj := hne hl
    unfold Linked type nlink at hl ⊢
    rwa [hsame hj]
  · have hj := hne' (by rw [hf]; decide)
    rw [type, hsame hj] at hf
    rw [nlink, hsame hj]
    exact h.links hf
  · have hj' := hne' hj
    rwa [type, hsame hj'] at hj

theorem createNode (hd : k.type d = .dir) (hfresh : distinct → k.FreshName d nm 0)
    (type : InodeType) (nlink : Nat) (hkind : type = .dir ∨ type = .file ∧ nlink = 1) :
    Shape distinct connected (k.createNode d nm type nlink).1 := by
  obtain ⟨i, hslot, hroom, -, -, hnode⟩ | ⟨-, -, hsame⟩ | ⟨i, hslot, -, -, hnode⟩ :=
    createNode_cases hd nm type nlink
  · exact h.add_new hd hroom hfresh hslot hkind hnode
  · rw [hsame]
    exact h
  · exact h.drop_unlinked (not_linked_of_free (freeSlot_spec hslot).1) hnode

/-- A new link count of a directory. -/
theorem modDirLink (hd : k.type d = .dir) {f : Nat → Nat} :
    Shape distinct connected (k.modInode d fun n => { n with nlink := f n.nlink }) := by
  have hnode (j : Nat) : (k.modInode d fun n => { n with nlink := f n.nlink }).inode j =
      { k.inode j with nlink := if j = d then f (k.nlink j) else k.nlink j } := by
    rw [inode_modInode]
    split
    · next hj => rw [hj]; rfl
    · rfl
  have htype (j : Nat) : (k.modInode d fun n => { n with nlink := f n.nlink }).type j = k.type j :=
    (congrArg RamfsInode.type (hnode j) :)
  have hfile (j : Nat) (hj : k.type j = .file) :
      (k.modInode d fun n => { n with nlink := f n.nlink }).nlink j = k.nlink j := by
    have hjd : j ≠ d := by
      rintro rfl
      rw [hd] at hj
      cases hj
    exact (congrArg RamfsInode.nlink (hnode j) : _).trans (if_neg hjd)
  refine h.congr (funext fun j => (congrArg RamfsInode.children (hnode j) :))
    (fun j => by rw [htype]) (fun j => ?_) (fun j _ => (congrArg RamfsInode.parent (hnode j) :))
    (fun j _ => (congrArg RamfsInode.name (hnode j) :)) (fun j hj => ?_) fun j hj => htype j ▸ hj
  · unfold Linked
    rw [htype]
    refine or_congr Iff.rfl (and_congr_right fun hj => ?_)
    rw [hfile j hj]
  · rw [htype] at hj
    rw [hfile j hj]
    exact h.links hj

theorem createFile (hfresh : distinct → k.FreshName d nm 0) :
    Shape distinct connected (k.createFile d nm).1 := by
  rw [Ramfs.createFile]
  split
  · exact h
  · next hd => exact h.createNode (not_not.1 hd) hfresh .file 1 (.inr ⟨rfl, rfl⟩)

/-- A new directory has one parent and no children. -/
theorem createDir (hok : distinct → nm.length < ramfsMaxName ∨ k.FreshName d nm 0) :
    Shape distinct connected (k.createDir d nm).1 := by
  rw [Ramfs.createDir]
  split
  · exact h
  next hd =>
  split
  · exact h
  next hlook =>
  replace hd : k.type d = .dir := not_not.1 hd
  have hfresh (hdis : distinct) : k.FreshName d nm 0 := by
    refine (hok hdis).elim (fun hlen => ?_) id
    have hstored : storedName nm = nm := take_of_length_le (by omega)
    intro c hc _
    rw [hstored]
    exact lookupChild_eq_zero hd h.zero_not_child (not_not.1 hlook) c hc
  have hnew := h.createNode hd hfresh .dir 2 (.inl rfl)
  have hdir := type_createNode hd nm .dir 2
  generalize k.createNode d nm .dir 2 = r at hnew hdir
  obtain ⟨k1, _ | i⟩ := r
  · exact hnew
  · exact hnew.modDirLink hdir (f := fun n => (n + 1) % 2 ^ 32)

/-- The child is taken off its list, and freed if it is not open. -/
theorem opUnlink : Shape distinct connected (k.opUnlink d nm).1 := by
  obtain hsame | ⟨i, h0, hd, hc, hdir, -, hother, hx⟩ := opUnlink_cases nm (h.owned d)
  · rw [hsame]
    exact h
  generalize (k.opUnlink d nm).1 = k' at hother hx
  have hfile : k.type i = .file := ((h.child hc).2.2.1.resolve_left hdir).1
  have hleaf : k.children i = [] := h.children_of_not_dir hdir
  refine h.remove hc hleaf ?_ (.of_children hother) fun j => ?_
  · obtain ⟨-, -, hx⟩ | ⟨-, hx⟩ := hx
    · refine not_linked_of_free ?_
      rw [type, hx]
      rfl
    · -- the only link is gone
      rintro (hl | hl)
      · rw [type, hx] at hl
        exact hdir hl
      · have hn : k'.nlink i = k.nlink i - 1 := congrArg RamfsInode.nlink hx
        have := h.links hfile
        exact hl.2 (by omega)
  · by_cases hj : j = i
    · rw [hj, hleaf, children]
      obtain ⟨-, -, hx⟩ | ⟨-, hx⟩ := hx
      · rw [hx]
        rfl
      · rw [hx]
        exact hleaf
    · exact congrArg RamfsInode.children (hother j hj)

/-- An empty directory is taken off its list. -/
theorem opRmdir : Shape distinct connected (k.opRmdir d nm).1 := by
  obtain hsame | ⟨i, -, h0, hd, hc, hdir, hempty, -, hnode⟩ := opRmdir_cases nm (h.owned d)
  · rw [hsame]
    exact h
  generalize (k.opRmdir d nm).1 = k' at hnode
  -- the parent's link goes first: the names do not depend on it
  have h1 : Shape distinct connected (k.dropLink d) := h.modDirLink hd (f := fun n => n - 1)
  have hdrop (j : Nat) : (k.dropLink d).inode j =
      { k.inode j with nlink := if j = d then k.nlink j - 1 else k.nlink j } := by
    rw [dropLink, inode_modInode]
    split
    · next hj => rw [hj]; rfl
    · rfl
  have hkids (j : Nat) : (k.dropLink d).children j = k.children j :=
    (congrArg RamfsInode.children (hdrop j) :)
  have hx : k'.inode i = .zeroed := (hnode i).trans (if_pos rfl)
  have hother (j : Nat) (hj : j ≠ i) : k'.inode j =
      { (k.dropLink d).inode j with children := (k.children j).erase i } := by
    rw [hnode, if_neg hj, hdrop]
  refine h1.remove (d := d) ?_ ?_ (not_linked_of_free ?_) (.of_children hother) fun j => ?_
  · rw [hkids]
    exact hc
  · rw [hkids]
    exact hempty
  · rw [type, hx]
    rfl
  · rw [hkids]
    by_cases hj : j = i
    · rw [hj, children, hx, hempty]
      rfl
    · exact congrArg RamfsInode.children (hother j hj)

/-- A node that was taken from its directory and renamed, `k1`, goes below `p`. -/
theorem rehang {k1 : Ramfs} {p : Nat} (hi : i ∈ k.children d)
    (hp : k.type p = .dir) (hroom : ((k.children p).erase i).length < ramfsMaxChildren)
    (hbelow : connected → ¬ Reach k.children i p) (hfresh : distinct → k.FreshName p nm i)
    (hx : k1.inode i = { k.inode i with name := storedName nm, children := (k.children i).erase i })
    (hother : ∀ j, j ≠ i → k1.inode j = { k.inode j with children := (k.children j).erase i }) :
    (k1.addChild p i).2 = 0 ∧ Shape distinct connected (k1.addChild p i).1 := by
  obtain ⟨-, -, hl, hr⟩ := h.child hi
  have hi0 : i ≠ 0 := by
    rintro rfl
    exact h.zero_not_child hi
  have hbound : i < ramfsMaxInodes := h.bound fun hf => not_linked_of_free hf hl
  have hnode (j : Nat) : k1.type j = k.type j ∧ k1.children j = (k.children j).erase i := by
    by_cases hj : j = i
    · rw [hj, type, children, hx]
      exact ⟨rfl, rfl⟩
    · rw [type, children, hother j hj]
      exact ⟨rfl, rfl⟩
  obtain ⟨hrc, -, hadd⟩ := addChild_ok ((hnode p).1.trans hp) ((hnode p).2 ▸ hroom)
  have hsame (j : Nat) (hj : j ≠ i) : (k1.addChild p i).1.inode j =
      { k.inode j with children := (k.children j).erase i ++ if j = p then [i] else [] } := by
    rw [hadd, if_neg hj, (hnode j).2, parent, hother j hj]
  have hself := hadd i
  rw [if_pos rfl, hx] at hself
  generalize (k1.addChild p i).1 = k2 at hadd hsame hself
  have htype : k2.type i = k.type i := (congrArg RamfsInode.type hself :)
  refine ⟨hrc, h.place (.of_children hsame) hi0 hr hbound hp hroom hbelow ?_ ?_
    (congrArg RamfsInode.parent hself) (fun j => ?_)
    (.inl ⟨hl, htype⟩)⟩
  · rw [show k2.name i = storedName nm from congrArg RamfsInode.name hself]
    exact hfresh
  · rw [htype, show k2.nlink i = k.nlink i from (congrArg RamfsInode.nlink hself :)]
    obtain hdir | ⟨hf, hn⟩ := hl
    · exact .inl hdir
    · have := h.links hf
      exact .inr ⟨hf, by omega⟩
  · rw [← (hnode j).2]
    exact congrArg RamfsInode.children (hadd j)

/-- The child goes from one list to the other, or back where the new one is full. -/
theorem opRename {old new : Nat} {oldName : FileName}
    (hto : k.HasRoom new old → (distinct → k.FreshName new nm (k.lookupChild old oldName)) ∧
      (connected → ¬ Reach k.children (k.lookupChild old oldName) new))
    (hback : ¬ k.HasRoom new old → distinct → k.FreshName old nm (k.lookupChild old oldName)) :
    Shape distinct connected (k.opRename old oldName new nm).1 := by
  unfold Ramfs.opRename
  dsimp only
  split
  · exact h
  next h0 =>
  obtain ⟨hd, hc, -⟩ := lookupChild_spec h0
  generalize k.lookupChild old oldName = i at h0 hc hto hback ⊢
  obtain ⟨-, -, hl, -⟩ := h.child hc
  obtain ⟨hi, honly⟩ := h.owned old i hc
  obtain ⟨hrc, -, hrem⟩ := removeChild_eq hd hc honly
  rw [hrc]
  generalize (k.removeChild old i).1 = k1 at hrem
  have hset : k1.setName i nm = k1.modInode i fun n => { n with name := storedName nm } := by
    rw [setName, if_neg]
    rintro (hf | hf | hf)
    · exact h0 hf
    · omega
    · rw [type, hrem] at hf
      exact not_linked_of_free hf hl
  have hx : (k1.setName i nm).inode i =
      { k.inode i with name := storedName nm, children := (k.children i).erase i } := by
    rw [hset, inode_modInode, if_pos rfl, hrem]
  have hother (j : Nat) (hj : j ≠ i) : (k1.setName i nm).inode j =
      { k.inode j with children := (k.children j).erase i } := by
    rw [hset, inode_modInode, if_neg hj, hrem]
  generalize k1.setName i nm = k2 at hx hother
  -- the old directory always has room for its own child
  have hlen : ((k.children old).erase i).length < ramfsMaxChildren := by
    have := h.full old
    have := length_erase_of_mem hc
    have := length_pos_of_mem hc
    omega
  by_cases hroom : k.HasRoom new old
  · obtain ⟨hfresh, hbelow⟩ := hto hroom
    have hlen' : ((k.children new).erase i).length < ramfsMaxChildren := by
      obtain ⟨-, hlt | rfl⟩ := hroom
      · exact lt_of_le_of_lt length_erase_le hlt
      · exact hlen
    obtain ⟨hrc, htree⟩ := h.rehang hc hroom.1 hlen' hbelow hfresh hx hother
    rw [hrc]
    exact htree
  · have hno : ¬ (k2.type new = .dir ∧ (k2.children new).length < ramfsMaxChildren) := by
      rintro ⟨hdir, hlt⟩
      have hnode : k2.type new = k.type new ∧ k2.children new = (k.children new).erase i := by
        by_cases hni : new = i
        · rw [hni, type, children, hx]
          exact ⟨rfl, rfl⟩
        · rw [type, children, hother new hni]
          exact ⟨rfl, rfl⟩
      rw [hnode.1] at hdir
      rw [hnode.2] at hlt
      refine hroom ⟨hdir, ?_⟩
      by_cases hno : new = old
      · exact .inr hno
      · rw [erase_of_not_mem fun hm => hno (honly new hm)] at hlt
        exact .inl hlt
    obtain ⟨hsame, hrc⟩ := addChild_of_not hno
    rw [if_pos hrc, hsame]
    exact (h.rehang hc hd hlen (fun hcon => h.acyclic hcon hc) (hback hroom) hx hother).2

end

theorem children_init (d : Nat) : Ramfs.init.children d = [] := by
  show (Ramfs.init.inode d).children = []
  simp only [Ramfs.init]
  split <;> rfl

/-- The root alone. -/
theorem init : Shape distinct connected Ramfs.init := by
  have hkids := children_init
  have hroot {i : Nat} (hi : Ramfs.init.type i ≠ .free) : i = ramfsRootIno := by
    by_contra hne
    refine hi ?_
    show (Ramfs.init.inode i).type = .free
    simp only [Ramfs.init, if_neg hne]
    rfl
  have hlinked {i : Nat} (hi : Ramfs.init.Linked i) : i = ramfsRootIno :=
    hroot fun hf => not_linked_of_free hf hi
  refine ⟨rfl, rfl, rfl, ?_, ?_, ?_, ?_, ?_, ?_, ?_, ?_⟩
  · intro d c hc
    rw [hkids] at hc
    cases hc
  · intro d
    rw [hkids]
    exact nodup_nil
  · intro _ d
    rw [hkids]
    exact nodup_nil
  · intro i hi hr
    exact absurd (hlinked hi) hr
  · intro _ i hi
    rw [hlinked hi]
    exact .refl
  · intro i hi
    have hr : i = ramfsRootIno := hroot (by rw [hi]; decide)
    rw [hr] at hi
    cases hi
  · intro i hi
    rw [hroot hi]
    decide
  · intro d
    rw [hkids]
    exact Nat.zero_le _

/-- Every operation keeps the shape of the names, whatever `rename` is asked to do. -/
theorem step (h : Shape False False k) (e : RamfsOp) : Shape False False (k.step e) := by
  cases e with
  | mkdir parent name => exact h.createDir False.elim
  | create parent name => exact h.createFile False.elim
  | unlink parent name => exact h.opUnlink
  | rmdir parent name => exact h.opRmdir
  | rename oldParent oldName newParent newName =>
    exact h.opRename (fun _ => ⟨False.elim, False.elim⟩) fun _ => False.elim

end Shape

/-- One operation keeps the tree. -/
theorem Tree.step (h : Tree True k) {e : RamfsOp} (he : k.StepOk e) : Tree True (k.step e) := by
  cases e with
  | mkdir parent name => exact h.createDir fun _ => he
  | create parent name => exact h.createFile fun _ => he
  | unlink parent name => exact h.opUnlink
  | rmdir parent name => exact h.opRmdir
  | rename oldParent oldName newParent newName =>
    obtain ⟨hto, hback⟩ := he
    exact h.opRename (fun hroom => ⟨fun _ => (hto hroom).1, fun _ => (hto hroom).2⟩)
      fun hno _ => hback hno

end Ramfs

open Machine

/-- In a run that uses no name twice in a directory and moves no directory below
itself, the names form a tree in every state. -/
theorem isTree_of_stepOk {es : List RamfsOp} (hes : Along Ramfs.step Ramfs.StepOk .init es) :
    (run Ramfs.step .init es).IsTree := by
  have hstep (k : Ramfs) (e : RamfsOp) : Ramfs.Tree True k → k.StepOk e →
      Ramfs.Tree True (k.step e) :=
    fun hk he => hk.step he
  exact (run_invariant hstep Ramfs.Shape.init hes).isTree

/-- A directory, and a file that is moved into it. -/
def moveRun : List RamfsOp :=
  [.mkdir ramfsRootIno [0x64], .create ramfsRootIno [0x61],
    .rename ramfsRootIno [0x61] 2 [0x62]]

theorem isTree_moveRun : (run Ramfs.step .init moveRun).IsTree ∧
    (run Ramfs.step .init moveRun).children 2 = [3] := by
  refine ⟨isTree_of_stepOk ⟨.inl (by decide), ?_, ⟨fun _ => ⟨by decide, ?_⟩, by decide⟩, trivial⟩,
    by decide⟩
  · show Ramfs.FreshName _ ramfsRootIno [0x61] 0
    decide
  · -- the file has nothing below it
    intro hr
    exact absurd (hr.of_leaf (by decide)) (by decide)

/-- Two files, and the first is given the name of the second. -/
def renameOntoRun : List RamfsOp :=
  [.create ramfsRootIno [0x61], .create ramfsRootIno [0x62],
    .rename ramfsRootIno [0x61] ramfsRootIno [0x62]]

theorem renameOntoRun_not_isTree : ¬ (run Ramfs.step .init renameOntoRun).IsTree := by
  intro h
  have := h.names ramfsRootIno (by decide)
  revert this
  decide

end UnixOs
