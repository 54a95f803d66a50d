import UnixOs.Fs.Ext2DirMap
import UnixOs.Fs.Readdir

/-!
# `ext2_readdir_chunk` on the bytes of a directory (ext2.c)

The cursor is a byte position in the directory. A call goes on at the record there, block
by block, until the next entry does not fit into the buffer. On a well-formed directory it
does what `Ext2Dir.readdirChunk` does over the records of all blocks (`run_readdirChunk`),
so that the cursor is at the start of a record again.

- `readdirCalls`: calls with buffers of any sizes, each from where the last one ended;
- `listed`: the live entries other than `.` and `..`;
- `readdirCalls_lists`: what the calls write.
-/

namespace UnixOs

open List DirBlock

open BlockDevice Bytes ErrState Ext2Dir Chunks

namespace Ext2

/-! ## The loops -/

section Records

variable (buf : Image UInt8) (off : Nat)

/-- `emit` (ext2.c:1000). -/
def recEmits : Bool :=
  decide (recInode buf off ≠ 0 ∧ 0 < recNameLen buf off ∧
    ¬ (recNameLen buf off = 1 ∧ buf (off + 8) = dot) ∧
    ¬ (recNameLen buf off = 2 ∧ buf (off + 8) = dot ∧ buf (off + 8 + 1) = dot))

/-- The `linux_dirent` of a record, with the cursor in front of it. -/
def recDirent (cursor : Nat) : Dirent :=
  ⟨recInode buf off, .ofNat (cursor + (recLen buf off).toNat),
    Image.load buf (off + 8) (recNameLen buf off)⟩

end Records

/-- After the records of a block: the entries that were written, `written`, `cursor`, and
whether the next entry did not fit. -/
structure BlockChunk where
  out : List Dirent
  written : Nat
  cursor : Nat
  full : Bool

/-- The loop over the records of a block (ext2.c:994). -/
def chunkInBlock (bs : Nat) (buf : Image UInt8) (size : Nat) : Nat → Nat → Nat → Nat → BlockChunk
  | 0, written, _, cursor => ⟨[], written, cursor, false⟩
  | fuel + 1, written, inblk, cursor =>
    if bs ≤ inblk ∨ recLen buf inblk = 0 then ⟨[], written, cursor, false⟩
    else
      let advance := (recLen buf inblk).toNat
      if recEmits buf inblk then
        let e := recDirent buf inblk cursor
        if size < written + e.reclen then ⟨[], written, cursor, true⟩
        else
          let b := chunkInBlock bs buf size fuel (written + e.reclen) (inblk + advance)
            ((cursor + advance) % 2 ^ 32)
          { b with out := e :: b.out }
      else chunkInBlock bs buf size fuel written (inblk + advance) ((cursor + advance) % 2 ^ 32)

/-- The loop over the blocks (ext2.c:979); none if it goes on for more than `fuel`
rounds. -/
def chunkFrom (dir : Ext2Inode) (size : Nat) : Nat → Nat → Nat → Ext2M (Option (List Dirent × Nat))
  | 0, _, _ => pure none
  | fuel + 1, written, cursor => do
    let s ← get
    if cursor < dir.size.toNat then
      let phys ← inodeBlockPhys dir (cursor / s.blockSize)
      if phys = 0 then pure (some ([], cursor))
      else
        let buf ← readBlock phys
        let b := chunkInBlock s.blockSize buf size s.blockSize written (cursor % s.blockSize) cursor
        if b.full then pure (some (b.out, b.cursor))
        else
          let rest ← chunkFrom dir size fuel b.written b.cursor
          pure (rest.map fun r => (b.out ++ r.1, r.2))
    else pure (some ([], cursor))

/-- `ext2_readdir_chunk` (ext2.c:958): the entries in the buffer, and `*pos`. -/
def readdirChunk (fuel parent size pos : Nat) : Ext2M (Option (List Dirent × Nat)) := do
  match ← attempt (readInode parent) with
  | none => throw (-Errno.EIO)
  | some dir =>
    if dir.isDir = false then throw (-Errno.ENOTDIR)
    else chunkFrom dir size fuel 0 pos

/-- Calls with buffers of these sizes, each with the position that the last one left. -/
def readdirCalls (fuel parent : Nat) : List Nat → Nat → Ext2M (Option (List (List Dirent)))
  | [], _ => pure (some [])
  | size :: sizes, pos => do
    match ← readdirChunk fuel parent size pos with
    | none => pure none
    | some (out, pos) =>
      let outs ← readdirCalls fuel parent sizes pos
      pure (outs.map (out :: ·))

/-! ## The records of a block -/

variable {s : Ext2} {buf : Image UInt8} {bs off fuel cursor ino : Nat} {r : DirRec}
  {pre post : DirBlock}

/-- The name of a live record. -/
theorem Reads.name_eq (h : Reads buf off r) (h0 : r.inode ≠ 0) :
    r.name = Image.load buf (off + 8) (recNameLen buf off) := by
  obtain ⟨hlen, hname⟩ := h.name h0
  rw [hlen, hname]

/-- The names `.` and `..`, seen in the bytes. -/
theorem load_eq_dots_iff (m : Image UInt8) (a n : Nat) :
    (Image.load m a n ≠ [] ↔ 0 < n) ∧ (Image.load m a n = [dot] ↔ n = 1 ∧ m a = dot) ∧
      (Image.load m a n = [dot, dot] ↔ n = 2 ∧ m a = dot ∧ m (a + 1) = dot) := by
  have hlen : (Image.load m a n).length = n := Image.length_load
  refine ⟨?_, ?_, ?_⟩
  · rw [← length_pos_iff, hlen]
  · constructor
    · intro h
      obtain rfl : n = 1 := by rw [← hlen, h]; rfl
      exact ⟨rfl, (cons.inj h).1⟩
    · rintro ⟨rfl, hdot⟩
      exact congrArg (fun x => [x]) hdot
  · constructor
    · intro h
      obtain rfl : n = 2 := by rw [← hlen, h]; rfl
      obtain ⟨hfirst, hrest⟩ := cons.inj h
      exact ⟨rfl, hfirst, (cons.inj hrest).1⟩
    · rintro ⟨rfl, hdot, hdot'⟩
      show [m (a + 0), m (a + 1)] = _
      rw [add_zero, hdot, hdot']

theorem Reads.recEmits_eq (h : Reads buf off r) : recEmits buf off = emits r := by
  rw [recEmits, emits]
  by_cases h0 : r.inode = 0
  · rw [decide_eq_false fun hn => hn.1 (h.inode_eq_zero_iff.2 h0), decide_eq_false
      fun hn => hn.1 h0]
  · obtain ⟨hne, hone, htwo⟩ := load_eq_dots_iff buf (off + 8) (recNameLen buf off)
    rw [← h.name_eq h0] at hne hone htwo
    refine decide_eq_decide.2 ⟨fun hn => ⟨h0, hne.2 hn.2.1, mt hone.1 hn.2.2.1, mt htwo.1 hn.2.2.2⟩,
      fun hn => ⟨mt h.inode_eq_zero_iff.1 h0, hne.1 hn.2.1, mt hone.2 hn.2.2.1, mt htwo.2 hn.2.2.2⟩⟩

theorem Reads.recDirent_eq (h : Reads buf off r) (h0 : r.inode ≠ 0) (cursor : Nat) :
    recDirent buf off cursor = dirent cursor r := by
  rw [recDirent, dirent, h.len, ← h.name_eq h0, ← h.inode, UInt32.ofNat_toNat]

/-- The loop over the records is the one over all records, up to the end of the block. -/
theorem chunkInBlock_eq (h : Walk bs buf fuel off post) (size w : Nat)
    (hlt : cursor + span post < 2 ^ 32) (more : List DirRec) :
    chunkLoop size w cursor (post ++ more) =
      (if (chunkInBlock bs buf size fuel w off cursor).full then
        ((chunkInBlock bs buf size fuel w off cursor).out,
          (chunkInBlock bs buf size fuel w off cursor).cursor)
      else
        ((chunkInBlock bs buf size fuel w off cursor).out
            ++ (chunkLoop size (chunkInBlock bs buf size fuel w off cursor).written
              (chunkInBlock bs buf size fuel w off cursor).cursor more).1,
          (chunkLoop size (chunkInBlock bs buf size fuel w off cursor).written
            (chunkInBlock bs buf size fuel w off cursor).cursor more).2)) ∧
      ((chunkInBlock bs buf size fuel w off cursor).full = false →
        (chunkInBlock bs buf size fuel w off cursor).cursor = cursor + span post) := by
  induction post generalizing fuel off cursor w with
  | nil =>
    have hstop : chunkInBlock bs buf size fuel w off cursor = ⟨[], w, cursor, false⟩ := by
      cases fuel with
      | zero => rfl
      | succ fuel => exact if_pos (.inl h.stop)
    rw [hstop]
    exact ⟨rfl, fun _ => rfl⟩
  | cons r post ih =>
    obtain ⟨fuel, rfl, hgo, hrest⟩ := h.next
    have hreads := h.tiled.1
    rw [span_cons] at hlt ⊢
    have hnext : cursor + r.recLen + span post < 2 ^ 32 := by omega
    have hmod : (cursor + (recLen buf off).toNat) % 2 ^ 32 = cursor + r.recLen := by
      rw [hreads.len]
      exact Nat.mod_eq_of_lt (by omega)
    rw [cons_append, chunkLoop, chunkInBlock, if_neg hgo, hreads.recEmits_eq]
    by_cases he : emits r
    · have h0 : r.inode ≠ 0 := (of_decide_eq_true he).1
      rw [if_pos he, if_pos he, hreads.recDirent_eq h0, hmod]
      dsimp only
      by_cases hfull : size < w + (dirent cursor r).reclen
      · rw [if_pos hfull, if_pos hfull]
        exact ⟨rfl, Bool.noConfusion⟩
      · rw [if_neg hfull, if_neg hfull]
        obtain ⟨hloop, hend⟩ := ih hrest (w + (dirent cursor r).reclen) hnext
        rw [hloop]
        refine ⟨?_, fun hf => ?_⟩
        · split <;> rfl
        · rw [hend hf]
          omega
    · rw [if_neg he, if_neg he, hmod]
      obtain ⟨hloop, hend⟩ := ih hrest w hnext
      refine ⟨hloop, fun hf => ?_⟩
      rw [hend hf]
      omega

/-- The walk from the middle of a block. -/
theorem walk_suffix (h : DirBlock.Laid bs (blockRecords bs buf))
    (hsplit : blockRecords bs buf = pre ++ post) : Walk bs buf bs (span pre) post := by
  have hwalk := walk_blockRecords h
  rw [hsplit] at hwalk
  refine ⟨?_, fun r hr => hwalk.laid r (mem_append_right _ hr), ?_, by omega⟩
  · have := (tiled_append.1 hwalk.tiled).2
    rwa [zero_add] at this
  · have := hwalk.fill
    rwa [zero_add, span_append] at this

theorem span_pos (hl : ∀ r ∈ post, r.Laid) (hne : post ≠ []) : 0 < span post := by
  cases post with
  | nil => exact absurd rfl hne
  | cons r post =>
    have := (hl r mem_cons_self).header
    rw [span_cons]
    omega

/-! ## The blocks of a directory -/

section Directory

variable (h : s.volume.IsDir ino) (hreads : s.reads = [])

include h in
theorem dirBlock_ne_nil {j : Nat} (hpos : 0 < s.blockSize) (hj : j < s.volume.dirLen ino) :
    s.volume.dirBlock ino j ≠ [] := by
  intro hnil
  have hfill := (h.laid j hj).fill
  rw [hnil] at hfill
  exact absurd hfill (Nat.ne_of_lt hpos)

include h hreads

/-- From the middle of a block the loop goes through the rest of the directory. -/
theorem run_chunkFrom (size : Nat) {j w : Nat} (hj : j < s.volume.dirLen ino)
    (hsplit : s.volume.dirBlock ino j = pre ++ post) (hne : post ≠ [])
    (hfuel : s.volume.dirLen ino < j + fuel) :
    (chunkFrom (s.volume.inodeAt ino) size fuel w (j * s.blockSize + span pre)).run s
      = .ok (some (chunkLoop size w (j * s.blockSize + span pre)
        (post ++ ((s.volume.dirBlocks ino).drop (j + 1)).flatten))) s := by
  have hsize : (s.volume.inodeAt ino).size.toNat = s.volume.dirLen ino * s.blockSize := h.size
  have htotal := (s.volume.inodeAt ino).size.toNat_lt
  induction fuel generalizing j w pre post with
  | zero => omega
  | succ fuel ih =>
    have hwalk : Walk s.blockSize
      (s.contents (s.volume.physOf (s.volume.inodeAt ino) j)) s.blockSize
        (span pre) post := walk_suffix (h.laid j hj) hsplit
    have hspan := span_pos hwalk.laid hne
    have hfill := hwalk.fill
    have hle : (j + 1) * s.blockSize ≤ s.volume.dirLen ino * s.blockSize :=
      Nat.mul_le_mul_right _ hj
    rw [Nat.succ_mul] at hle
    have hdiv : (j * s.blockSize + span pre) / s.blockSize = j := by
      rw [mul_comm, Nat.mul_add_div (by omega), Nat.div_eq_of_lt (by omega), add_zero]
    have hmod : (j * s.blockSize + span pre) % s.blockSize = span pre := by
      rw [mul_comm, Nat.mul_add_mod, Nat.mod_eq_of_lt (by omega)]
    have hphys : s.volume.physOf (s.volume.inodeAt ino) j ≠ 0 := h.full j hj
    obtain ⟨hloop, hend⟩ := chunkInBlock_eq hwalk size w
      (show j * s.blockSize + span pre + span post < 2 ^ 32 by omega)
      ((s.volume.dirBlocks ino).drop (j + 1)).flatten
    rw [chunkFrom, run_get_bind, hsize, if_pos (by omega), hdiv,
      run_bind_ok (run_inodeBlockPhys hreads _ j), if_neg hphys,
      run_bind_ok (run_readBlock_ok hreads _), hmod, hloop]
    dsimp only
    generalize chunkInBlock s.blockSize (s.contents (s.volume.physOf (s.volume.inodeAt ino) j)) size
      s.blockSize w (span pre) (j * s.blockSize + span pre) = b at hend ⊢
    cases hb : b.full with
    | true => rfl
    | false =>
      have hcursor : b.cursor = (j + 1) * s.blockSize + span [] := by
        rw [hend hb, span_nil, Nat.succ_mul]
        omega
      rw [if_neg Bool.false_ne_true, if_neg Bool.false_ne_true, hcursor]
      obtain hlast | hnext := Nat.eq_or_lt_of_le (Nat.succ_le_of_lt hj)
      · -- the cursor is at the end
        have hdrop : (s.volume.dirBlocks ino).drop (j + 1) = [] := by
          refine drop_eq_nil_of_le ?_
          rw [Volume.length_dirBlocks]
          exact hlast.ge
        have hstop : (chunkFrom (s.volume.inodeAt ino) size fuel b.written
            ((j + 1) * s.blockSize + span [])).run s
              = .ok (some ([], (j + 1) * s.blockSize + span [])) s := by
          cases fuel with
          | zero => omega
          | succ fuel =>
            rw [chunkFrom, run_get_bind, hsize, span_nil, add_zero,
              if_neg (by rw [show j + 1 = _ from hlast]; exact lt_irrefl _)]
            rfl
        rw [run_bind_ok hstop, hdrop]
        rfl
      · have hwhole : s.volume.dirBlock ino (j + 1) = [] ++ s.volume.dirBlock ino (j + 1) := rfl
        rw [run_bind_ok (ih hnext hwhole (dirBlock_ne_nil h (by omega) hnext) (by omega)),
          Volume.drop_dirBlocks hnext]
        rfl

omit hreads in
theorem laid_of_mem_dirBlocks {b : DirBlock} (hb : b ∈ s.volume.dirBlocks ino) :
    DirBlock.Laid s.blockSize b := by
  obtain ⟨i, hi, rfl⟩ := mem_map.1 hb
  exact h.laid i (mem_range.1 hi)

omit h hreads in
/-- Blocks of one size. -/
theorem span_flatten {bs : Nat} {bl : List DirBlock} (hl : ∀ b ∈ bl, DirBlock.Laid bs b) :
    span bl.flatten = bl.length * bs := by
  induction bl with
  | nil => exact (Nat.zero_mul bs).symm
  | cons b bl ih =>
    have hb : span b = bs := (hl b mem_cons_self).fill
    rw [flatten_cons, span_append, hb, ih fun c hc => hl c (.tail b hc),
      length_cons, Nat.succ_mul, add_comm]

variable {front back : List DirRec}

omit hreads in
/-- A record of the directory is in one of its blocks. -/
theorem exists_block (hsplit : (s.volume.dirBlocks ino).flatten = front ++ back) (hne : back ≠ []) :
    ∃ as pre post bl, s.volume.dirBlocks ino = as ++ (pre ++ post) :: bl ∧
      front = as.flatten ++ pre ∧ back = post ++ bl.flatten ∧ post ≠ [] := by
  obtain ⟨as, bl, hblocks, rfl, rfl⟩ | ⟨as, pre, r, post, bl, hblocks, rfl, rfl⟩ :=
    flatten_eq_append_iff.1 hsplit
  · cases bl with
    | nil => exact absurd rfl hne
    | cons b bl =>
      refine ⟨as, [], b, bl, hblocks, (append_nil _).symm, rfl, fun hnil => ?_⟩
      have hb : b ∈ s.volume.dirBlocks ino := by
        rw [hblocks]
        exact mem_append_right _ mem_cons_self
      obtain ⟨i, hi, rfl⟩ := mem_map.1 hb
      have hi := mem_range.1 hi
      refine dirBlock_ne_nil h (Nat.pos_of_ne_zero fun h0 => ?_) hi hnil
      have hzero : s.volume.dirLen ino = 0 := by
        rw [Volume.dirLen, show s.volume.geom.blockSize = 0 from h0, Nat.div_zero]
      omega
  · exact ⟨as, pre, r :: post, bl, hblocks, rfl, rfl, nofun⟩

/-- From the start of a record `ext2_readdir_chunk` does what it does over the records. -/
theorem run_readdirChunk (size : Nat) (hsplit : (s.volume.dirBlocks ino).flatten = front ++ back)
    (hfuel : s.volume.dirLen ino < fuel) :
    (readdirChunk fuel ino size (span front)).run s
      = .ok (some (chunkLoop size 0 (span front) back)) s := by
  have hdir : ¬ (s.volume.inodeAt ino).isDir = false :=
    fun hfalse => Bool.noConfusion (h.dir.symm.trans hfalse)
  rw [readdirChunk, run_bind_ok (run_attempt_ok (run_readInode_ok hreads h.valid))]
  dsimp only
  rw [if_neg hdir]
  by_cases hne : back = []
  · have hspan := span_flatten fun b hb => laid_of_mem_dirBlocks h hb
    rw [hsplit, hne, append_nil, Volume.length_dirBlocks] at hspan
    cases fuel with
    | zero => omega
    | succ fuel =>
      have hsize : (s.volume.inodeAt ino).size.toNat = s.volume.dirLen ino * s.blockSize := h.size
      rw [chunkFrom, run_get_bind, hsize, hspan, if_neg (lt_irrefl _), hne]
      rfl
  · obtain ⟨as, pre, post, bl, hblocks, rfl, rfl, hpost⟩ := exists_block h hsplit hne
    have hlen := congrArg length hblocks
    rw [Volume.length_dirBlocks, length_append, length_cons] at hlen
    have hget : s.volume.dirBlock ino as.length = pre ++ post := by
      have hdrop := Volume.drop_dirBlocks (show as.length < s.volume.dirLen ino by omega)
      rw [hblocks, drop_left' rfl] at hdrop
      exact (cons.inj hdrop).1.symm
    have hrest : (s.volume.dirBlocks ino).drop (as.length + 1) = bl := by
      rw [hblocks, drop_append, drop_eq_nil_of_le (by omega), Nat.add_sub_cancel_left]
      rfl
    have hspan : span as.flatten = as.length * s.blockSize := span_flatten fun b hb =>
      laid_of_mem_dirBlocks h (by rw [hblocks]; exact mem_append_left _ hb)
    rw [span_append, hspan, ← hrest]
    exact run_chunkFrom h hreads size (by omega) hget hpost (by omega)

/-- The calls serve the entries that are left. -/
theorem run_readdirCalls (sizes : List Nat)
    (hsplit : (s.volume.dirBlocks ino).flatten = front ++ back)
    (hfuel : s.volume.dirLen ino < fuel) :
    (readdirCalls fuel ino sizes (span front)).run s
      = .ok (some (serve Dirent.reclen sizes (direntsFrom (span front) back))) s := by
  induction sizes generalizing front back with
  | nil => rfl
  | cons size sizes ih =>
    obtain ⟨mid, back', rfl, hout, hpos, hrest⟩ := chunkLoop_eq size 0 (span front) back
    have hsplit' : (s.volume.dirBlocks ino).flatten = (front ++ mid) ++ back' :=
      hsplit.trans (append_assoc _ _ _).symm
    have hspan : span front + (mid.map DirRec.recLen).sum = span (front ++ mid) :=
      (span_append front mid).symm
    rw [readdirCalls, run_bind_ok (run_readdirChunk h hreads size hsplit hfuel)]
    dsimp only
    rw [hpos, hspan, run_bind_ok (ih hsplit'), serve, ← hout, ← hrest, hpos, hspan]
    rfl

end Directory

end Ext2

/-! ## What is listed -/

/-- What a record says of a directory. -/
def Dirent.entry (e : Dirent) : FileName × Nat := (e.name, e.ino.toNat)

/-- The live entries other than `.` and `..`. -/
def Volume.listed (V : Volume) (ino : Nat) : List (FileName × Nat) :=
  (V.entriesOf ino).filter fun e => e.1 ≠ [dot] ∧ e.1 ≠ [dot, dot]

/-- Calls with these sizes list `es`: nothing is written behind a buffer, the entries
come once and in their order, all of them if there are enough calls, and a call returns 0
exactly if all of them came before. -/
structure Lists (sizes : List Nat) (es : List (FileName × Nat)) (outs : List (List Dirent)) :
    Prop where
  within : List.Forall₂ (fun out size => (out.map Dirent.reclen).sum ≤ size) outs sizes
  order : outs.flatten.map Dirent.entry <+: es
  complete : es.length ≤ sizes.length → outs.flatten.map Dirent.entry = es
  ended : ∀ i < sizes.length,
    outs[i]? = some [] ↔ (outs.take i).flatten.map Dirent.entry = es

theorem entry_dirent {cursor : Nat} {r : DirRec} (h : r.inode < 2 ^ 32) :
    (dirent cursor r).entry = (r.name, r.inode) := by
  rw [Dirent.entry]
  exact congrArg (Prod.mk r.name) (UInt32.toNat_ofNat_of_lt' h)

/-- The entries of the records. -/
theorem map_entry_direntsFrom {recs : List DirRec} (hinode : ∀ r ∈ recs, r.inode < 2 ^ 32)
    (hname : ∀ e ∈ entries recs, e.1 ≠ []) (cursor : Nat) :
    (direntsFrom cursor recs).map Dirent.entry
      = (entries recs).filter fun e => e.1 ≠ [dot] ∧ e.1 ≠ [dot, dot] := by
  induction recs generalizing cursor with
  | nil => rfl
  | cons r recs ih =>
    have hrest := fun x hx => hinode x (.tail r hx)
    rw [direntsFrom]
    by_cases h0 : r.inode = 0
    · have hno : ¬ emits r := fun he => (of_decide_eq_true he).1 h0
      rw [entries_cons_dead h0] at hname ⊢
      rw [if_neg hno, ih hrest hname]
    · rw [entries_cons_live h0] at hname ⊢
      have hne : r.name ≠ [] := hname _ mem_cons_self
      have ih' := ih hrest fun e he => hname e (.tail _ he)
      by_cases hdots : r.name ≠ [dot] ∧ r.name ≠ [dot, dot]
      · have hyes : emits r := decide_eq_true ⟨h0, hne, hdots⟩
        rw [if_pos hyes, map_cons, ih',
          filter_cons_of_pos (by simpa using hdots), entry_dirent (hinode r mem_cons_self)]
      · have hno : ¬ emits r := fun he => hdots (of_decide_eq_true he).2.2
        rw [if_neg hno, ih', filter_cons_of_neg (by simpa using hdots)]

namespace Ext2

variable {s : Ext2} {fuel ino : Nat}

theorem inode_lt_of_mem_records {buf : Image UInt8} {bs off : Nat} {r : DirRec}
    (h : r ∈ records bs buf fuel off) : r.inode < 2 ^ 32 := by
  induction fuel generalizing off with
  | zero => exact absurd h not_mem_nil
  | succ fuel ih =>
    rw [records] at h
    split at h
    · exact absurd h not_mem_nil
    · obtain rfl | h := mem_cons.1 h
      · exact (recInode buf off).toNat_lt
      · exact ih h

/-- **The listing of a directory.** Whatever the sizes of the buffers, if each has room
for the next entry. -/
theorem readdirCalls_lists (h : s.volume.IsDir ino)
    (hnames : ∀ e ∈ s.volume.entriesOf ino, e.1 ≠ []) (hreads : s.reads = [])
    (hfuel : s.volume.dirLen ino < fuel) {sizes : List Nat}
    (hroom : Roomy (fun e => Ramfs.reclen e.1) sizes (s.volume.listed ino)) :
    ∃ outs, (readdirCalls fuel ino sizes 0).run s = .ok (some outs) s ∧
      Lists sizes (s.volume.listed ino) outs := by
  have hinode : ∀ r ∈ (s.volume.dirBlocks ino).flatten, r.inode < 2 ^ 32 := by
    intro r hr
    obtain ⟨b, hb, hr⟩ := mem_flatten.1 hr
    obtain ⟨i, -, rfl⟩ := mem_map.1 hb
    exact inode_lt_of_mem_records hr
  have hentries := map_entry_direntsFrom hinode hnames 0
  change _ = s.volume.listed ino at hentries
  rw [← hentries] at hroom ⊢
  have hroom : Roomy Dirent.reclen sizes (direntsFrom 0 (s.volume.dirBlocks ino).flatten) :=
    (roomy_map Dirent.entry).1 hroom
  have hrun := run_readdirCalls h hreads sizes (nil_append _).symm hfuel
  rw [span_nil] at hrun
  refine ⟨_, hrun, ?_, ?_, ?_, ?_⟩
  · exact serve_within sizes _
  · exact (flatten_serve_initial sizes _).map Dirent.entry
  · intro hlen
    rw [length_map] at hlen
    exact congrArg (map Dirent.entry) (serve_complete hroom hlen)
  · intro i hi
    rw [serve_eq_nil_iff hroom hi]
    refine ⟨congrArg _, fun heq => ?_⟩
    rw [serve_take] at heq ⊢
    have hlen := congrArg length heq
    rw [length_map, length_map] at hlen
    exact (flatten_serve_initial _ _).eq_of_length hlen

theorem listed_dirVolume : dirVolume.entriesOf 2 = [([0x61], 3), ([0x62], 4)] ∧
    dirVolume.listed 2 = [([0x61], 3), ([0x62], 4)] := by
  decide +kernel

/-- Two entries of 12 bytes: one fits the first buffer, the second call finds the other,
and the third has nothing to write. -/
theorem readdirCalls_dirFs : (dirFs [] []).volume.IsDir 2 ∧
    ∃ outs, (readdirCalls 3 2 [23, 12, 0] 0).run (dirFs [] []) = .ok (some outs) (dirFs [] []) ∧
      Lists [23, 12, 0] ((dirFs [] []).volume.listed 2) outs := by
  have hlisted := listed_dirVolume
  have hlen : dirVolume.dirLen 2 = 2 := by decide +kernel
  rw [← volume_dirFs] at hlisted hlen
  refine ⟨isDir_dirFs, readdirCalls_lists isDir_dirFs ?_ rfl ?_ ?_⟩
  · rw [hlisted.1]
    decide
  · rw [hlen]
    decide
  · rw [hlisted.2]
    exact ⟨by simp [Ramfs.reclen], by simp [Ramfs.reclen, fitting], by simp [Ramfs.reclen, fitting],
      trivial⟩

end Ext2

end UnixOs
