import Mathlib.Algebra.GroupWithZero.Nat
import UnixOs.Fs.Ramfs
import UnixOs.Lib.Run

/-!
# ext2 directories (ext2.c)

A directory is a list of at most twelve blocks, and a block is a sequence of
records that fill it (`rec_len`); a record whose `inode` is zero is free. A block
is kept as its records: the bytes behind a name, up to the next record, are never
looked at.

`DirEnv` has what the device and the allocator answer during one call.

- `Unique`: no two live entries of the directory have the same name;
- `addScan`: the loop of `ext2_dir_add_entry`, which searches a block for the name
  and then for room, before it reads the next block;
- `Reached`: the block that has the name is searched before room is found.
-/

namespace UnixOs

open List Machine Option Errno

/-- `dir_entry_size` (ext2.c:640). -/
def dirEntrySize (nameLen : Nat) : Nat := (8 + nameLen + 3) / 4 * 4

/-- `ext2_dir_entry_t` with the name behind it. -/
structure DirRec where
  inode : Nat
  recLen : Nat
  name : FileName
  fileType : UInt8
  deriving DecidableEq

open DirRec

abbrev DirBlock := List DirRec

namespace DirRec

variable (r : DirRec)

def live : Bool := decide (r.inode ≠ 0)

/-- A live entry with this name. -/
def isNamed (name : FileName) : Bool := r.live && decide (r.name = name)

/-- What the entry needs of its record. -/
def actual : Nat := if r.inode = 0 then 0 else dirEntrySize r.name.length

/-- Whether the record is free and long enough, or has as much slack. -/
def fits (need : Nat) : Bool := decide (need ≤ r.recLen - r.actual)

/-- `new` takes over a free record, or the slack behind an entry. -/
def place (new : DirRec) : List DirRec :=
  if r.inode = 0 then [{ new with recLen := r.recLen }]
  else [{ r with recLen := r.actual }, { new with recLen := r.recLen - r.actual }]

/-- A record of a directory. -/
structure Wf : Prop where
  header : 8 ≤ r.recLen
  aligned : r.recLen % 4 = 0
  name_le : r.name.length ≤ 255
  name_ne : r.inode ≠ 0 → r.name ≠ []
  room : r.actual ≤ r.recLen

/-- A record as it lies in a block, whatever its name. -/
structure Laid : Prop where
  header : 8 ≤ r.recLen
  aligned : r.recLen % 4 = 0
  room : r.actual ≤ r.recLen

theorem Wf.laid {r : DirRec} (h : r.Wf) : r.Laid := ⟨h.header, h.aligned, h.room⟩

end DirRec

namespace DirBlock

/-- Whether a live entry has the name. -/
def holds (name : FileName) (b : DirBlock) : Bool := b.any (·.isNamed name)

def hasRoom (need : Nat) (b : DirBlock) : Bool := b.any (·.fits need)

/-- The second inner loop of `ext2_dir_add_entry`: `new` goes into the first record
it fits. -/
def placeIn (new : DirRec) : DirBlock → Option DirBlock
  | [] => none
  | r :: rs =>
    if r.fits (dirEntrySize new.name.length) then some (r.place new ++ rs)
    else (placeIn new rs).map (r :: ·)

/-- The inner loop of `ext2_dir_remove_entry` behind the record `p`: the record is
joined to the one in front of it. -/
def removeAfter (name : FileName) (p : DirRec) : DirBlock → Option DirBlock
  | [] => none
  | r :: rs =>
    if r.isNamed name then some ({ p with recLen := p.recLen + r.recLen } :: rs)
    else (removeAfter name r rs).map (p :: ·)

/-- The same from the start of the block, where there is none in front. -/
def removeIn (name : FileName) : DirBlock → Option DirBlock
  | [] => none
  | r :: rs => if r.isNamed name then some ({ r with inode := 0 } :: rs) else removeAfter name r rs

/-- The records fill the block. -/
structure Wf (blockSize : Nat) (b : DirBlock) : Prop where
  fill : (b.map recLen).sum = blockSize
  recs : ∀ r ∈ b, r.Wf

/-- The same, whatever the names. -/
structure Laid (blockSize : Nat) (b : DirBlock) : Prop where
  fill : (b.map recLen).sum = blockSize
  recs : ∀ r ∈ b, r.Laid

end DirBlock

/-- The answers of one call: of `read_inode`, of `read_block` for each block of the
directory, of the `journaled_write` of a block, of `alloc_block_in_group_locked`
over the groups and of `write_inode_locked`; the last two are zero or an error of
the device or the allocator. -/
structure DirEnv where
  readInode : Bool
  readBlock : Nat → Bool
  write : Bool
  alloc : Int
  writeInode : Int
  alloc_ne : alloc ≠ -EEXIST
  writeInode_ne : writeInode ≠ -EEXIST

/-- How the loop of `ext2_dir_add_entry` over the blocks ends. -/
inductive AddScan where
  | found
  | ioError
  | placed (blocks : List DirBlock)
  | full

/-- Everything succeeds. -/
def DirEnv.ok : DirEnv := ⟨true, fun _ => true, true, 0, 0, by decide, by decide⟩

namespace Ext2Dir

/-- The loop of `ext2_dir_add_entry` from block `i` on. -/
def addScan (env : DirEnv) (new : DirRec) (i : Nat) : List DirBlock → AddScan
  | [] => .full
  | b :: bs =>
    if env.readBlock i = false then .ioError
    else if b.holds new.name then .found
    else
      match DirBlock.placeIn new b with
      | some b' => .placed (b' :: bs)
      | none =>
        match addScan env new (i + 1) bs with
        | .placed bs' => .placed (b :: bs')
        | r => r

/-- `ext2_dir_add_entry` (ext2.c:645) of a directory with these blocks. -/
def addEntry (blockSize : Nat) (env : DirEnv) (blocks : List DirBlock) (name : FileName)
    (child : Nat) (fileType : UInt8) : List DirBlock × Int :=
  if name = [] ∨ child = 0 then (blocks, -EINVAL)
  else if 255 < name.length then (blocks, -ENAMETOOLONG)
  else if env.readInode = false then (blocks, -Errno.EIO)
  else
    match addScan env ⟨child, 0, name, fileType⟩ 0 blocks with
    | .found => (blocks, -EEXIST)
    | .ioError => (blocks, -Errno.EIO)
    | .placed blocks' => if env.write then (blocks', 0) else (blocks, -Errno.EIO)
    | .full =>
      if 12 ≤ blocks.length then (blocks, -EFBIG)
      else if env.alloc ≠ 0 then (blocks, env.alloc)
      else if env.write = false then (blocks, -Errno.EIO)
      else if env.writeInode ≠ 0 then (blocks, env.writeInode)
      else (blocks ++ [[⟨child, blockSize, name, fileType⟩]], 0)

/-- The loop of `ext2_dir_remove_entry` from block `i` on: the blocks with the
entry removed, or the error. -/
def removeScan (env : DirEnv) (name : FileName) (i : Nat) :
    List DirBlock → Except Int (List DirBlock)
  | [] => .error (-ENOENT)
  | b :: bs =>
    if env.readBlock i = false then .error (-Errno.EIO)
    else
      match DirBlock.removeIn name b with
      | some b' => .ok (b' :: bs)
      | none => (removeScan env name (i + 1) bs).map (b :: ·)

/-- `ext2_dir_remove_entry` (ext2.c:800). -/
def removeEntry (env : DirEnv) (blocks : List DirBlock) (name : FileName) :
    List DirBlock × Int :=
  if name = [] then (blocks, -EINVAL)
  else if env.readInode = false then (blocks, -Errno.EIO)
  else
    match removeScan env name 0 blocks with
    | .error rc => (blocks, rc)
    | .ok blocks' => if env.write then (blocks', env.writeInode) else (blocks, -Errno.EIO)

/-- Some block has a live entry with the name. -/
def Has (blocks : List DirBlock) (name : FileName) : Prop := ∃ b ∈ blocks, b.holds name = true

/-- The names of the live entries. -/
def liveNames (recs : List DirRec) : List FileName := (recs.filter live).map name

/-- No two live entries have the same name. -/
def Unique (blocks : List DirBlock) : Prop := (liveNames blocks.flatten).Nodup

/-- A directory of the file system. -/
structure Wf (blockSize : Nat) (blocks : List DirBlock) : Prop where
  direct : blocks.length ≤ 12
  blocks : ∀ b ∈ blocks, DirBlock.Wf blockSize b

end Ext2Dir

/-- A call on a directory. -/
inductive DirCall where
  | add (env : DirEnv) (name : FileName) (child : Nat) (fileType : UInt8)
  | remove (env : DirEnv) (name : FileName)

namespace Ext2Dir

variable (blockSize : Nat)

def call (blocks : List DirBlock) : DirCall → List DirBlock × Int
  | .add env name child fileType => addEntry blockSize env blocks name child fileType
  | .remove env name => removeEntry env blocks name

def step (blocks : List DirBlock) (c : DirCall) : List DirBlock := (call blockSize blocks c).1

/-- `-EEXIST` is returned exactly when the name is there, and names stay unique. -/
def CallOk (blocks : List DirBlock) (c : DirCall) : Prop :=
  Unique (step blockSize blocks c) ∧
    match c with
    | .add _ name _ _ => ((call blockSize blocks c).2 = -EEXIST ↔ Has blocks name)
    | .remove _ _ => True

/-- The first block that has the name is read, and no block in front of it has room
for the new entry. -/
def Reached (blocks : List DirBlock) : DirCall → Prop
  | .add env name child _ =>
    Has blocks name → child ≠ 0 ∧ env.readInode = true ∧
      ∃ front b back, blocks = front ++ b :: back ∧ b.holds name = true ∧
        (∀ b' ∈ front, b'.holds name = false ∧ b'.hasRoom (dirEntrySize name.length) = false) ∧
        ∀ i ≤ front.length, env.readBlock i = true
  | .remove _ _ => True

end Ext2Dir

/-! ## Blocks -/

namespace DirBlock

open Ext2Dir

variable {b b' : DirBlock} {new r : DirRec} {name : FileName}

theorem holds_iff : b.holds name = true ↔ name ∈ liveNames b := by
  constructor
  · intro h
    obtain ⟨r, hr, hnamed⟩ := any_eq_true.1 h
    obtain ⟨hlive, heq⟩ := Bool.and_eq_true_iff.1 hnamed
    exact mem_map.2 ⟨r, mem_filter.2 ⟨hr, hlive⟩, of_decide_eq_true heq⟩
  · intro h
    obtain ⟨r, hr, heq⟩ := mem_map.1 h
    obtain ⟨hr, hlive⟩ := mem_filter.1 hr
    exact any_eq_true.2 ⟨r, hr, Bool.and_eq_true_iff.2 ⟨hlive, decide_eq_true heq⟩⟩

theorem liveNames_append (l l' : List DirRec) :
    liveNames (l ++ l') = liveNames l ++ liveNames l' := by
  rw [liveNames, filter_append, map_append]
  rfl

theorem liveNames_cons (r : DirRec) (l : List DirRec) :
    liveNames (r :: l) = (if r.live then [r.name] else []) ++ liveNames l := by
  rw [liveNames, filter_cons]
  split
  · rfl
  · rfl

/-- The record that gets the entry has one more name. -/
theorem liveNames_place (hnew : new.inode ≠ 0) :
    (liveNames (r.place new)).Perm (new.name :: liveNames [r]) := by
  have hlive (n : Nat) : live { new with recLen := n } = true := decide_eq_true hnew
  rw [place]
  split
  · next h =>
    have hr : r.live = false := decide_eq_false (not_not.2 h)
    rw [liveNames_cons, liveNames_cons, hlive, hr]
    rfl
  · next h =>
    have hr : r.live = true := decide_eq_true h
    have hr' : live { r with recLen := r.actual } = true := decide_eq_true h
    rw [liveNames_cons, liveNames_cons, liveNames_cons, hlive, hr, hr']
    exact List.Perm.swap _ _ _

/-- An entry that is placed adds its name. -/
theorem liveNames_placeIn (hnew : new.inode ≠ 0) (h : placeIn new b = some b') :
    (liveNames b').Perm (new.name :: liveNames b) := by
  induction b generalizing b' with
  | nil => cases h
  | cons r rs ih =>
    rw [placeIn] at h
    split at h
    · cases h
      have hcons : liveNames (r :: rs) = liveNames [r] ++ liveNames rs := liveNames_append [r] rs
      rw [liveNames_append, hcons]
      exact (liveNames_place hnew).append_right _
    · obtain ⟨rs', hrs, rfl⟩ := map_eq_some_iff.1 h
      rw [liveNames_cons, liveNames_cons]
      exact ((ih hrs).append_left _).trans perm_middle

theorem placeIn_eq_none_iff :
    placeIn new b = none ↔ b.hasRoom (dirEntrySize new.name.length) = false := by
  induction b with
  | nil => exact iff_of_true rfl rfl
  | cons r rs ih =>
    rw [placeIn, hasRoom]
    split
    · next h => simp [h]
    · next h =>
      rw [map_eq_none_iff, ih, hasRoom]
      simp [h]

/-- Removing an entry adds no name. -/
theorem liveNames_removeAfter {p : DirRec} (h : removeAfter name p b = some b') :
    (liveNames b').Sublist (liveNames (p :: b)) := by
  induction b generalizing p b' with
  | nil => cases h
  | cons r rs ih =>
    rw [removeAfter] at h
    split at h
    · cases h
      rw [liveNames_cons, liveNames_cons, liveNames_cons r]
      exact (sublist_append_right _ _).append_left _
    · obtain ⟨rs', hrs, rfl⟩ := map_eq_some_iff.1 h
      rw [liveNames_cons, liveNames_cons p]
      exact (ih hrs).append_left _

theorem liveNames_removeIn (h : removeIn name b = some b') :
    (liveNames b').Sublist (liveNames b) := by
  cases b with
  | nil => cases h
  | cons r rs =>
    rw [removeIn] at h
    split at h
    · cases h
      rw [liveNames_cons r]
      exact sublist_append_right _ _
    · exact liveNames_removeAfter h

theorem eight_le_dirEntrySize (n : Nat) : 8 ≤ dirEntrySize n := by
  unfold dirEntrySize
  omega

/-- The records that take the place of one fill it. -/
theorem place_laid (new : DirRec) (hr : r.Laid) (hnew : new.inode ≠ 0)
    (hfits : r.fits (dirEntrySize new.name.length) = true) :
    ((r.place new).map recLen).sum = r.recLen ∧ ∀ x ∈ r.place new, x.Laid := by
  have h8 := eight_le_dirEntrySize new.name.length
  have hal := hr.aligned
  have hfit : dirEntrySize new.name.length ≤ r.recLen - r.actual := of_decide_eq_true hfits
  have hactual (n : Nat) : actual { new with recLen := n } = dirEntrySize new.name.length :=
    if_neg hnew
  rw [place]
  split
  · next h0 =>
    refine ⟨sum_singleton, fun x hx => ?_⟩
    obtain rfl := mem_singleton.1 hx
    refine ⟨hr.header, hal, ?_⟩
    rw [hactual]
    show dirEntrySize new.name.length ≤ r.recLen
    omega
  · next h0 =>
    have hused : r.actual = dirEntrySize r.name.length := if_neg h0
    have h8' := eight_le_dirEntrySize r.name.length
    have hal' : r.actual % 4 = 0 := by
      rw [hused, dirEntrySize]
      omega
    constructor
    · show r.actual + (r.recLen - r.actual + 0) = r.recLen
      omega
    · intro x hx
      obtain rfl | hx := mem_cons.1 hx
      · exact ⟨by show 8 ≤ r.actual; omega, hal', le_refl _⟩
      · obtain rfl := mem_singleton.1 hx
        constructor
        · show 8 ≤ r.recLen - r.actual
          omega
        · show (r.recLen - r.actual) % 4 = 0
          omega
        · rw [hactual]
          exact hfit

/-- They have the new name, or that of the record. -/
theorem name_of_mem_place {x : DirRec} (hx : x ∈ r.place new) :
    x.name = new.name ∨ x.name = r.name ∧ x.inode = r.inode := by
  rw [place] at hx
  split at hx
  · obtain rfl := mem_singleton.1 hx
    exact .inl rfl
  · obtain rfl | hx := mem_cons.1 hx
    · exact .inr ⟨rfl, rfl⟩
    · obtain rfl := mem_singleton.1 hx
      exact .inl rfl

theorem place_wf (hr : r.Wf) (hnew : new.inode ≠ 0) (hne : new.name ≠ [])
    (hlen : new.name.length ≤ 255) (hfits : r.fits (dirEntrySize new.name.length) = true) :
    ((r.place new).map recLen).sum = r.recLen ∧ ∀ x ∈ r.place new, x.Wf := by
  obtain ⟨hfill, hrecs⟩ := place_laid _ hr.laid hnew hfits
  refine ⟨hfill, fun x hx => ?_⟩
  obtain ⟨hheader, haligned, hroom⟩ := hrecs x hx
  obtain hname | ⟨hname, hinode⟩ := name_of_mem_place hx
  · exact ⟨hheader, haligned, hname ▸ hlen, fun _ => hname ▸ hne, hroom⟩
  · exact ⟨hheader, haligned, hname ▸ hr.name_le, fun h0 => hname ▸ hr.name_ne (hinode ▸ h0), hroom⟩

/-- Placing an entry keeps the block well formed. -/
theorem placeIn_wf {n : Nat} (hb : Wf n b) (hnew : new.inode ≠ 0) (hne : new.name ≠ [])
    (hlen : new.name.length ≤ 255) (h : placeIn new b = some b') : Wf n b' := by
  induction b generalizing n b' with
  | nil => cases h
  | cons r rs ih =>
    have hsum : r.recLen + (rs.map recLen).sum = n := hb.fill
    rw [placeIn] at h
    split at h
    · next hfits =>
      cases h
      obtain ⟨hfill, hrecs⟩ := place_wf (hb.recs r mem_cons_self) hnew hne hlen hfits
      refine ⟨?_, fun x hx => ?_⟩
      · rw [map_append, sum_append, hfill]
        exact hsum
      · obtain hx | hx := mem_append.1 hx
        · exact hrecs x hx
        · exact hb.recs x (.tail r hx)
    · obtain ⟨rs', hrs, rfl⟩ := map_eq_some_iff.1 h
      have hrest := ih ⟨rfl, fun x hx => hb.recs x (.tail r hx)⟩ hrs
      refine ⟨?_, fun x hx => ?_⟩
      · rw [map_cons, sum_cons, hrest.fill]
        exact hsum
      · obtain rfl | hx := mem_cons.1 hx
        · exact hb.recs x mem_cons_self
        · exact hrest.recs x hx

/-- The record before takes the room of the removed one. -/
theorem removeAfter_wf {n : Nat} {p : DirRec} (hb : Wf n (p :: b))
    (h : removeAfter name p b = some b') : Wf n b' := by
  induction b generalizing n p b' with
  | nil => cases h
  | cons r rs ih =>
    have hp := hb.recs p mem_cons_self
    have hsum : p.recLen + (r.recLen + (rs.map recLen).sum) = n := hb.fill
    rw [removeAfter] at h
    split at h
    · cases h
      have hr := hb.recs r (.tail p mem_cons_self)
      have hpa := hp.aligned
      have hra := hr.aligned
      refine ⟨?_, fun x hx => ?_⟩
      · show p.recLen + r.recLen + (rs.map recLen).sum = n
        omega
      · obtain rfl | hx := mem_cons.1 hx
        · exact ⟨Nat.le_add_right_of_le hp.header, by show (p.recLen + r.recLen) % 4 = 0; omega,
            hp.name_le, hp.name_ne, Nat.le_add_right_of_le hp.room⟩
        · exact hb.recs x (.tail p (.tail r hx))
    · obtain ⟨rs', hrs, rfl⟩ := map_eq_some_iff.1 h
      have hrest := ih ⟨rfl, fun x hx => hb.recs x (.tail p hx)⟩ hrs
      refine ⟨?_, fun x hx => ?_⟩
      · rw [map_cons, sum_cons, hrest.fill]
        exact hsum
      · obtain rfl | hx := mem_cons.1 hx
        · exact hp
        · exact hrest.recs x hx

theorem removeIn_wf {n : Nat} (hb : Wf n b) (h : removeIn name b = some b') : Wf n b' := by
  cases b with
  | nil => cases h
  | cons r rs =>
    rw [removeIn] at h
    split at h
    · cases h
      have hr := hb.recs r mem_cons_self
      refine ⟨hb.fill, fun x hx => ?_⟩
      obtain rfl | hx := mem_cons.1 hx
      · exact ⟨hr.header, hr.aligned, hr.name_le, (absurd rfl), Nat.zero_le _⟩
      · exact hb.recs x (.tail r hx)
    · exact removeAfter_wf hb h

end DirBlock

/-! ## Directories -/

namespace Ext2Dir

open DirBlock

variable {env : DirEnv} {blocks blocks' : List DirBlock} {new : DirRec} {name : FileName} {i : Nat}

theorem has_iff : Has blocks name ↔ name ∈ liveNames blocks.flatten := by
  induction blocks with
  | nil => simp [Has, liveNames]
  | cons b bs ih =>
    rw [flatten_cons, liveNames_append, mem_append, ← ih, ← holds_iff]
    simp [Has]

/-- The search finds the name exactly if it gets to the block that has it. -/
theorem addScan_eq_found_iff (env : DirEnv) (new : DirRec) (i : Nat) (blocks : List DirBlock) :
    addScan env new i blocks = .found ↔
    ∃ front b back, blocks = front ++ b :: back ∧ b.holds new.name = true ∧
      (∀ b' ∈ front, b'.holds new.name = false ∧
        b'.hasRoom (dirEntrySize new.name.length) = false) ∧
      ∀ j ≤ front.length, env.readBlock (i + j) = true := by
  induction blocks generalizing i with
  | nil =>
    refine iff_of_false (by rintro ⟨⟩) ?_
    rintro ⟨front, b, back, h, -⟩
    cases front <;> cases h
  | cons c cs ih =>
    rw [addScan]
    constructor
    · intro h
      split at h
      · cases h
      next hread =>
      have hread : env.readBlock i = true := by simpa using hread
      split at h
      · next hc =>
        refine ⟨[], c, cs, rfl, hc, fun b' hb' => (by cases hb'), fun j hj => ?_⟩
        obtain rfl : j = 0 := Nat.le_zero.1 hj
        exact hread
      next hc =>
      split at h
      · cases h
      next hnone =>
      -- the rest of the blocks finds it
      have hrest : addScan env new (i + 1) cs = .found := by
        generalize addScan env new (i + 1) cs = r at h
        cases r with
        | found => rfl
        | ioError | placed | full => cases h
      obtain ⟨front, b, back, rfl, hb, hfront, hreads⟩ := (ih _).1 hrest
      refine ⟨c :: front, b, back, rfl, hb, ?_, fun j hj => ?_⟩
      · intro b' hb'
        obtain rfl | hb' := mem_cons.1 hb'
        · exact ⟨by simpa using hc, placeIn_eq_none_iff.1 hnone⟩
        · exact hfront b' hb'
      · cases j with
        | zero => exact hread
        | succ j =>
          have := hreads j (by simpa using hj)
          rwa [add_assoc, add_comm 1] at this
    · rintro ⟨front, b, back, heq, hb, hfront, hreads⟩
      have hread : env.readBlock i = true := hreads 0 (Nat.zero_le _)
      rw [if_neg (by simp [hread])]
      cases front with
      | nil =>
        cases heq
        rw [if_pos hb]
      | cons d front =>
        rw [cons_append] at heq
        cases heq
        obtain ⟨hc, hroom⟩ := hfront c mem_cons_self
        rw [if_neg (by simp [hc]), placeIn_eq_none_iff.2 hroom]
        have hrest : addScan env new (i + 1) (front ++ b :: back) = .found := by
          refine (ih _).2 ⟨front, b, back, rfl, hb, fun b' hb' => ?_, fun j hj => ?_⟩
          · exact hfront b' (.tail c hb')
          · have := hreads (j + 1) (by simpa using hj)
            rwa [add_comm j, ← add_assoc] at this
        rw [hrest]

/-- An entry is placed in one of the blocks. -/
theorem addScan_placed (h : addScan env new i blocks = .placed blocks') :
    ∃ front b b' back, blocks = front ++ b :: back ∧ placeIn new b = some b' ∧
      blocks' = front ++ b' :: back := by
  induction blocks generalizing i blocks' with
  | nil => cases h
  | cons c cs ih =>
    rw [addScan] at h
    split at h
    · cases h
    split at h
    · cases h
    split at h
    · next c' hc' =>
      cases h
      exact ⟨[], c, c', cs, rfl, hc', rfl⟩
    · cases hrest : addScan env new (i + 1) cs with
      | placed cs' =>
        rw [hrest] at h
        cases h
        obtain ⟨front, b, b', back, rfl, hb, rfl⟩ := ih hrest
        exact ⟨c :: front, b, b', back, rfl, hb, rfl⟩
      | found | ioError | full =>
        rw [hrest] at h
        cases h

/-- An entry is removed from one of the blocks. -/
theorem removeScan_ok (h : removeScan env name i blocks = .ok blocks') :
    ∃ front b b' back, blocks = front ++ b :: back ∧ removeIn name b = some b' ∧
      blocks' = front ++ b' :: back := by
  induction blocks generalizing i blocks' with
  | nil => cases h
  | cons c cs ih =>
    rw [removeScan] at h
    split at h
    · cases h
    split at h
    · next c' hc' =>
      cases h
      exact ⟨[], c, c', cs, rfl, hc', rfl⟩
    · cases hrest : removeScan env name (i + 1) cs with
      | ok cs' =>
        rw [hrest] at h
        cases h
        obtain ⟨front, b, b', back, rfl, hb, rfl⟩ := ih hrest
        exact ⟨c :: front, b, b', back, rfl, hb, rfl⟩
      | error rc =>
        rw [hrest] at h
        cases h

theorem liveNames_flatten (front back : List DirBlock) (b : DirBlock) :
    liveNames (front ++ b :: back).flatten
      = liveNames front.flatten ++ (liveNames b ++ liveNames back.flatten) := by
  rw [flatten_append, flatten_cons, liveNames_append, liveNames_append]

theorem liveNames_addScan (hnew : new.inode ≠ 0) (h : addScan env new i blocks = .placed blocks') :
    (liveNames blocks'.flatten).Perm (new.name :: liveNames blocks.flatten) := by
  obtain ⟨front, b, b', back, rfl, hb, rfl⟩ := addScan_placed h
  rw [liveNames_flatten, liveNames_flatten]
  have hperm := ((liveNames_placeIn hnew hb).append_right (liveNames back.flatten)).append_left
    (liveNames front.flatten)
  exact hperm.trans perm_middle

theorem liveNames_removeScan (h : removeScan env name i blocks = .ok blocks') :
    (liveNames blocks'.flatten).Sublist (liveNames blocks.flatten) := by
  obtain ⟨front, b, b', back, rfl, hb, rfl⟩ := removeScan_ok h
  rw [liveNames_flatten, liveNames_flatten]
  exact ((liveNames_removeIn hb).append_right _).append_left _

/-- What adding an entry can do: the name is there; or another error; or the entry
is added. -/
theorem addEntry_cases (blockSize : Nat) (env : DirEnv) (blocks : List DirBlock) (name : FileName)
    (child : Nat) (fileType : UInt8) :
    (addEntry blockSize env blocks name child fileType = (blocks, -EEXIST) ∧
      name ≠ [] ∧ child ≠ 0 ∧ name.length ≤ 255 ∧ env.readInode = true ∧
      addScan env ⟨child, 0, name, fileType⟩ 0 blocks = .found) ∨
    ((addEntry blockSize env blocks name child fileType).2 ≠ -EEXIST ∧
      (name ≠ [] → child ≠ 0 → name.length ≤ 255 → env.readInode = true →
        addScan env ⟨child, 0, name, fileType⟩ 0 blocks ≠ .found) ∧
      ((addEntry blockSize env blocks name child fileType).1 = blocks ∨
        (liveNames (addEntry blockSize env blocks name child fileType).1.flatten).Perm
          (name :: liveNames blocks.flatten))) := by
  rw [addEntry]
  by_cases harg : name = [] ∨ child = 0
  · rw [if_pos harg]
    refine .inr ⟨(by decide : -EINVAL ≠ -EEXIST), fun hn hc => ?_, .inl rfl⟩
    obtain h | h := harg
    · exact absurd h hn
    · exact absurd h hc
  rw [if_neg harg]
  by_cases hlen : 255 < name.length
  · rw [if_pos hlen]
    exact .inr ⟨(by decide : -ENAMETOOLONG ≠ -EEXIST), fun _ _ hle => (by omega), .inl rfl⟩
  rw [if_neg hlen]
  by_cases hread : env.readInode = false
  · rw [if_pos hread]
    refine .inr ⟨(by decide : -Errno.EIO ≠ -EEXIST), fun _ _ _ hr => ?_, .inl rfl⟩
    rw [hread] at hr
    cases hr
  rw [if_neg hread]
  have hchild : child ≠ 0 := fun h => harg (.inr h)
  cases hscan : addScan env ⟨child, 0, name, fileType⟩ 0 blocks with
  | found => exact .inl ⟨rfl, fun h => harg (.inl h), hchild, by omega, by simpa using hread, rfl⟩
  | ioError =>
    exact .inr ⟨(by decide : -Errno.EIO ≠ -EEXIST), fun _ _ _ _ => (by rintro ⟨⟩), .inl rfl⟩
  | placed blocks' =>
    have hperm := liveNames_addScan hchild hscan
    dsimp only
    split
    · exact .inr ⟨(by decide : (0 : Int) ≠ -EEXIST), fun _ _ _ _ => (by rintro ⟨⟩), .inr hperm⟩
    · exact .inr ⟨(by decide : -Errno.EIO ≠ -EEXIST), fun _ _ _ _ => (by rintro ⟨⟩), .inl rfl⟩
  | full =>
    refine .inr ⟨?_, fun _ _ _ _ => (by rintro ⟨⟩), ?_⟩
    · dsimp only
      split
      · exact (by decide : -EFBIG ≠ -EEXIST)
      split
      · exact env.alloc_ne
      split
      · exact (by decide : -Errno.EIO ≠ -EEXIST)
      split
      · exact env.writeInode_ne
      · exact (by decide : (0 : Int) ≠ -EEXIST)
    · dsimp only
      split
      · exact .inl rfl
      split
      · exact .inl rfl
      split
      · exact .inl rfl
      split
      · exact .inl rfl
      · -- a new block with the one entry
        refine .inr ?_
        have hlive : live ⟨child, blockSize, name, fileType⟩ = true := decide_eq_true hchild
        rw [flatten_append, liveNames_append, flatten_singleton, liveNames_cons, hlive]
        exact perm_append_singleton _ _

theorem Wf.arg_of_has {blockSize : Nat} (h : Wf blockSize blocks) (hn : Has blocks name) :
    name ≠ [] ∧ name.length ≤ 255 := by
  obtain ⟨b, hb, hholds⟩ := hn
  obtain ⟨r, hr, hnamed⟩ := any_eq_true.1 hholds
  obtain ⟨hlive, heq⟩ := Bool.and_eq_true_iff.1 hnamed
  have hwf := (h.blocks b hb).recs r hr
  rw [← of_decide_eq_true heq]
  exact ⟨hwf.name_ne (of_decide_eq_true hlive), hwf.name_le⟩

/-- In a directory with unique names, a call is as it should be exactly if it reaches
the block that has the name. -/
theorem callOk_iff {blockSize : Nat} (hwf : Wf blockSize blocks) (hu : Unique blocks)
    (c : DirCall) : CallOk blockSize blocks c ↔ Reached blocks c := by
  cases c with
  | remove env name =>
    refine iff_of_true ⟨?_, trivial⟩ trivial
    show Unique (removeEntry env blocks name).1
    rw [removeEntry]
    split
    · exact hu
    split
    · exact hu
    split
    · exact hu
    · next blocks' hscan =>
      split
      · exact List.Nodup.sublist (liveNames_removeScan hscan) hu
      · exact hu
  | add env name child fileType =>
    show Unique (addEntry blockSize env blocks name child fileType).1 ∧
      ((addEntry blockSize env blocks name child fileType).2 = -EEXIST ↔ Has blocks name) ↔ _
    have hfound := addScan_eq_found_iff env ⟨child, 0, name, fileType⟩ 0 blocks
    simp only [zero_add] at hfound
    obtain ⟨heq, hne, hchild, hlen, hread, hscan⟩ | ⟨hrc, hnot, hout⟩ :=
      addEntry_cases blockSize env blocks name child fileType
    · -- the name was found
      have hdec := hfound.1 hscan
      have hhas : Has blocks name := by
        obtain ⟨front, b, back, rfl, hb, -⟩ := hdec
        exact ⟨b, mem_append_right _ mem_cons_self, hb⟩
      rw [heq]
      exact iff_of_true ⟨hu, iff_of_true rfl hhas⟩ fun _ => ⟨hchild, hread, hdec⟩
    · constructor
      · rintro ⟨-, hiff⟩ hhas
        exact absurd (hiff.2 hhas) hrc
      · intro hreach
        have hhas : ¬ Has blocks name := by
          intro hhas
          obtain ⟨hchild, hread, hdec⟩ := hreach hhas
          obtain ⟨hne, hlen⟩ := hwf.arg_of_has hhas
          exact hnot hne hchild hlen hread (hfound.2 hdec)
        refine ⟨?_, iff_of_false hrc hhas⟩
        obtain hsame | hperm := hout
        · rw [hsame]
          exact hu
        · exact hperm.nodup_iff.2 (nodup_cons.2 ⟨fun hmem => hhas (has_iff.2 hmem), hu⟩)

theorem Wf.replace {n : Nat} {front back : List DirBlock} {b b' : DirBlock}
    (h : Wf n (front ++ b :: back)) (hb : DirBlock.Wf n b → DirBlock.Wf n b') :
    Wf n (front ++ b' :: back) := by
  refine ⟨?_, fun x hx => ?_⟩
  · have := h.direct
    rw [length_append] at this ⊢
    exact this
  · obtain hx | hx := mem_append.1 hx
    · exact h.blocks x (mem_append_left _ hx)
    obtain rfl | hx := mem_cons.1 hx
    · exact hb (h.blocks b (mem_append_right _ mem_cons_self))
    · exact h.blocks x (mem_append_right _ (.tail b hx))

/-- The calls keep a directory well formed, for every block size. -/
theorem Wf.step {k : Nat} (h : Wf (1024 * 2 ^ k) blocks) (c : DirCall) :
    Wf (1024 * 2 ^ k) (step (1024 * 2 ^ k) blocks c) := by
  cases c with
  | remove env name =>
    show Wf _ (removeEntry env blocks name).1
    rw [removeEntry]
    split
    · exact h
    split
    · exact h
    split
    · exact h
    · next blocks' hscan =>
      split
      · obtain ⟨front, b, b', back, rfl, hb, rfl⟩ := removeScan_ok hscan
        exact h.replace fun hwf => removeIn_wf hwf hb
      · exact h
  | add env name child fileType =>
    show Wf _ (addEntry (1024 * 2 ^ k) env blocks name child fileType).1
    rw [addEntry]
    split
    · exact h
    next harg =>
    split
    · exact h
    next hlen =>
    have hchild : child ≠ 0 := fun h0 => harg (.inr h0)
    have hne : name ≠ [] := fun h0 => harg (.inl h0)
    split
    · exact h
    split
    · exact h
    · exact h
    · next blocks' hscan =>
      split
      · obtain ⟨front, b, b', back, rfl, hb, rfl⟩ := addScan_placed hscan
        exact h.replace fun hwf => placeIn_wf hwf hchild hne (by dsimp only; omega) hb
      · exact h
    · split
      · exact h
      split
      · exact h
      split
      · exact h
      split
      · exact h
      · next hfull _ _ _ =>
        -- the new block is one record
        have hpow : 0 < 2 ^ k := Nat.two_pow_pos k
        refine ⟨?_, fun b hb => ?_⟩
        · rw [length_append, length_singleton]
          omega
        · obtain hb | hb := mem_append.1 hb
          · exact h.blocks b hb
          obtain rfl := mem_singleton.1 hb
          refine ⟨sum_singleton, fun r hr => ?_⟩
          obtain rfl := mem_singleton.1 hr
          refine ⟨by dsimp only; omega, by dsimp only; omega, by dsimp only; omega, fun _ => hne,
            ?_⟩
          rw [actual, if_neg hchild, dirEntrySize]
          dsimp only
          omega

/-- What a run keeps. -/
structure Sound (n : Nat) (blocks : List DirBlock) : Prop where
  wf : Wf n blocks
  unique : Unique blocks

/-- **Names stay unique** and `-EEXIST` tells that a name is there, in a run from a
directory with unique names, exactly if every call reaches the block that has the
name. -/
theorem uniqueNames_iff {k : Nat} {blocks : List DirBlock} (hwf : Wf (1024 * 2 ^ k) blocks)
    (hu : Unique blocks) (cs : List DirCall) :
    Along (step (1024 * 2 ^ k)) (CallOk (1024 * 2 ^ k)) blocks cs ↔
      Along (step (1024 * 2 ^ k)) Reached blocks cs := by
  have hstart : Sound (1024 * 2 ^ k) blocks := ⟨hwf, hu⟩
  refine along_congr (fun b c h => ?_) (fun b c h hc => ?_) hstart
  · exact callOk_iff h.wf h.unique c
  · exact ⟨h.wf.step c, ((callOk_iff h.wf h.unique c).2 hc).1⟩

/-- Two blocks, with an entry and slack each. -/
def twoBlocks : List DirBlock := [[⟨12, 1024, [0x61], 1⟩], [⟨13, 1024, [0x62], 1⟩]]

theorem wf_twoBlocks : Wf (1024 * 2 ^ 0) twoBlocks := by
  refine ⟨by decide, ?_⟩
  intro b hb
  obtain rfl | hb := mem_cons.1 hb
  · refine ⟨rfl, fun r hr => ?_⟩
    obtain rfl := mem_singleton.1 hr
    exact ⟨by decide, by decide, by decide, fun _ => by decide, by decide⟩
  · obtain rfl := mem_singleton.1 hb
    refine ⟨rfl, fun r hr => ?_⟩
    obtain rfl := mem_singleton.1 hr
    exact ⟨by decide, by decide, by decide, fun _ => by decide, by decide⟩

theorem unique_twoBlocks : Unique twoBlocks := by
  show (liveNames twoBlocks.flatten).Nodup
  decide

/-- Names that the first block has, or no block: `a` is found, `c` goes into the
slack behind it. -/
theorem uniqueNames_twoBlocks :
    Along (step (1024 * 2 ^ 0)) (CallOk (1024 * 2 ^ 0)) twoBlocks
      [.add .ok [0x61] 14 1, .add .ok [0x63] 14 1] := by
  refine (uniqueNames_iff wf_twoBlocks unique_twoBlocks _).2 ⟨fun _ => ?_, fun h => ?_, trivial⟩
  · refine ⟨by decide, rfl, [], _, _, rfl, by decide, fun b' hb' => ?_, fun _ _ => rfl⟩
    cases hb'
  · rw [has_iff] at h
    exact absurd h (by decide)

/-- The name is in the second block, and the first has room. -/
theorem addEntry_twice : ¬ Along (step (1024 * 2 ^ 0)) (CallOk (1024 * 2 ^ 0)) twoBlocks
    [.add .ok [0x62] 14 1] := by
  rintro ⟨⟨hu, -⟩, -⟩
  replace hu : (liveNames (step (1024 * 2 ^ 0) twoBlocks (.add .ok [0x62] 14 1)).flatten).Nodup :=
    hu
  revert hu
  decide

end Ext2Dir

end UnixOs
