import UnixOs.Fs.Ext2Accounting
import UnixOs.Fs.Ext2Ops
import UnixOs.Fs.Ext2Volume

/-!
# ext2 when the machine stops between two writes

Every image the device went through (`trail`) is one that a crash can leave. The
operations first mark a block and write its data, and then the inode that refers to
it, so each of these images is consistent. Truncation does it in the same order, with
the mark taken away first: while the inode is not yet written it refers to a block
that is free.

- `Sound G Q s`: the device and all images before are consistent, and `Q` holds of
  the device;
- `Stable Q`: `Q` survives writes that leave the files alone;
- `Kept`: a truncation gives no block back.
-/

namespace UnixOs.Ext2

open List Machine Ext2Inode

open BlockDevice Bytes ErrState Spans

/-- The device. -/
def volume (s : Ext2) : Volume := ⟨s.geom, s.image⟩

variable {s s' : Ext2} {G : Ext2Geometry} {Q Q' : Volume → Prop} {blk g bit ino i : Nat}
  {buf : Nat → UInt8} {n : Ext2Inode} {r : List Bool} {w : List Int}

@[simp] theorem volume_withEnv : (s.withEnv r w).volume = s.volume := Volume.ext geom_withEnv rfl

@[simp] theorem volume_store : (s.store blk buf).volume = s.volume.put blk buf :=
  Volume.ext geom_store rfl

@[simp] theorem volume_takeBlock : (s.takeBlock g bit).volume = s.volume.mark g bit :=
  Volume.ext geom_takeBlock rfl

theorem volume_geom (s : Ext2) : s.volume.geom = s.geom := rfl

theorem volume_contents (s : Ext2) (blk : Nat) : s.volume.contents blk = s.contents blk := rfl

-- the fields are rewritten one by one: Lean takes long to see that both sides are the same
@[simp] theorem volume_inodeAt : s.volume.inodeAt ino = s.inodeAt ino := by
  funext i
  rw [Volume.inodeAt, volume_geom, geom_inodeSize, geom_inodeBlk, geom_inodeInoff, volume_contents,
    inodeAt, inodeCopy]

@[simp] theorem volume_takeInode : (s.takeInode g bit).volume
    = s.volume.put (s.inodeBitmap g) (Bitmap.set (s.contents (s.inodeBitmap g)) bit) :=
  Volume.ext geom_takeInode rfl

theorem volume_eq (h : s.geom = G) : s.volume = ⟨G, s.image⟩ := by
  subst h
  rfl

/-! ## Sound states -/

structure Sound (G : Ext2Geometry) (Q : Volume → Prop) (s : Ext2) : Prop where
  geom : s.geom = G
  now : s.volume.Consistent
  trail : ∀ m ∈ s.trail, (⟨G, m⟩ : Volume).Consistent
  held : Q s.volume

/-- A property of the device that does not look at data, and of the bitmaps only at
what is marked. -/
def Stable (Q : Volume → Prop) : Prop := ∀ {V V' : Volume}, Volume.Frame V V' → Q V → Q V'

theorem stable_true : Stable fun _ => True := fun _ _ => trivial

namespace Sound

section

variable (h : Sound G Q s)
include h

theorem withEnv (r : List Bool) (w : List Int) : Sound G Q (s.withEnv r w) :=
  ⟨geom_withEnv.trans h.geom, volume_withEnv ▸ h.now, h.trail, volume_withEnv ▸ h.held⟩

theorem mono (himp : ∀ V, Q V → Q' V) : Sound G Q' s :=
  ⟨h.geom, h.now, h.trail, himp _ h.held⟩

theorem forget : Sound G (fun _ => True) s := h.mono fun _ _ => trivial

/-- The device is written. -/
theorem moved (hgeom : s'.geom = s.geom) (htrail : s'.trail = s'.image :: s.trail)
    (hc : s'.volume.Consistent) (hQ : Q' s'.volume) : Sound G Q' s' := by
  refine ⟨hgeom.trans h.geom, hc, fun m hm => ?_, hQ⟩
  rw [htrail] at hm
  obtain rfl | hm := mem_cons.1 hm
  · rwa [volume_eq (hgeom.trans h.geom)] at hc
  · exact h.trail m hm

theorem framed (hQ : Stable Q) (hgeom : s'.geom = s.geom)
    (htrail : s'.trail = s'.image :: s.trail) (hf : Volume.Frame s.volume s'.volume) :
    Sound G Q s' :=
  h.moved hgeom htrail (hf.consistent h.now) (hQ hf h.held)

/-- Only what is in memory changes. -/
theorem same (hgeom : s'.geom = s.geom) (himg : s'.image = s.image)
    (htrail : s'.trail = s.trail) : Sound G Q s' := by
  have hvol : s'.volume = s.volume := Volume.ext hgeom himg
  exact ⟨hgeom.trans h.geom, hvol ▸ h.now, htrail ▸ h.trail, hvol ▸ h.held⟩

end

end Sound

theorem syncClosed_sound (hQ : Stable Q) : SyncClosed G (Sound G Q) where
  geom hs := hs.geom
  env r w hs := hs.withEnv r w
  flags a b hs := hs.same (geom_congr rfl rfl) rfl rfl
  superblock {s} buf hs := by
    refine hs.framed hQ geom_stored rfl ?_
    exact Volume.Frame.putSuper hs.now
  gdt {s i} buf hi hs := by
    refine hs.framed hQ geom_store rfl ?_
    refine Volume.Frame.putMeta hs.now (.gdt i) ?_ ?_ (fun _ h => by cases h)
      fun _ _ h => by cases h
    · show i < s.geom.gdtBlocks
      rwa [hs.geom]
    · show s.geom.gdtBlock + i = _
      rw [hs.geom]

/-! ## The functions -/

theorem keeps_journaledWrite (hQ : Stable Q)
    (hf : ∀ V : Volume, V.geom = G → V.Consistent → Q V → Volume.Frame V (V.put blk buf)) :
    Keeps (Sound G Q) (journaledWrite blk buf) := by
  intro s hs
  obtain ⟨w, hw⟩ | ⟨rc, w, -, hw⟩ := journaledWrite_cases s blk buf
  · rw [hw]
    refine (hs.framed hQ geom_store rfl ?_).withEnv _ _
    exact hf s.volume hs.geom hs.now hs.held
  · rw [hw]
    exact hs.withEnv _ _

theorem run_allocDirBlockFrom_cons (g : Nat) (gs : List Nat) (s : Ext2) :
    (allocDirBlockFrom (g :: gs)).run s = match (allocBlockInGroup g).run s with
      | .ok blk s => .ok blk s
      | .error rc s => if rc = -Errno.EIO then .error rc s else (allocDirBlockFrom gs).run s := rfl

/-- A block is marked; what held before may become something about the block. -/
theorem Sound.takeBlock {R : Nat → Volume → Prop} (h : Sound G Q s) (hg : g < s.groups)
    (hbit : bit < s.blocksPerGroup) (hclear : Bitmap.get (s.contents (s.blockBitmap g)) bit = false)
    (hR : ∀ {V : Volume} {g bit : Nat}, V.geom = G → V.Consistent → g < V.geom.groups →
      bit < V.geom.blocksPerGroup → V.blockBit (V.geom.blockOf g bit) = false → Q V →
      R (V.geom.blockOf g bit) (V.mark g bit)) :
    Sound G (R (s.geom.blockOf g bit)) (s.takeBlock g bit) := by
  have hbit' : s.volume.blockBit (s.volume.geom.blockOf g bit) = false := by
    obtain ⟨-, hdiv, hmod⟩ := Volume.inRange_blockOf (V := s.volume) hg hbit
    rw [Volume.blockBit, hdiv, hmod]
    exact hclear
  refine h.moved geom_takeBlock rfl ?_ ?_
  · rw [volume_takeBlock]
    exact (Volume.Frame.mark h.now hg hbit).consistent h.now
  · rw [volume_takeBlock]
    exact hR (V := s.volume) h.geom h.now hg hbit hbit' h.held

section

variable {R : Nat → Volume → Prop}
  (hR : ∀ {V : Volume} {g bit : Nat}, V.geom = G → V.Consistent → g < V.geom.groups →
    bit < V.geom.blocksPerGroup → V.blockBit (V.geom.blockOf g bit) = false → Q V →
    R (V.geom.blockOf g bit) (V.mark g bit))

include hR

/-- The block that is allocated was clear in its bitmap, and is marked. -/
theorem spec_allocBlock :
    Spec (Sound G Q) allocBlock (fun blk => Sound G (R blk)) fun _ => Sound G Q := by
  intro s hs
  have hgroups : 0 < s.groups := hs.now.layout.groups_pos
  rw [allocBlock, run_get_bind]
  obtain ⟨r, w, bit, g, hg, hbit, -, hclear, hok⟩ | ⟨rc, r, w, -, herr⟩ :=
    allocBlockFrom_cases 0 (List.range' 1 (s.groups - 1)) s
  · have hlt : g < s.groups := by
      rw [mem_cons, mem_range'_1] at hg
      omega
    rw [hok]
    exact (hs.takeBlock hlt hbit hclear hR).withEnv r w
  · rw [herr]
    exact hs.withEnv r w

/-- The same search with another end. -/
theorem spec_allocDirBlockFrom {gs : List Nat} (hgs : ∀ g ∈ gs, g < G.groups) :
    Spec (Sound G Q) (allocDirBlockFrom gs) (fun blk => Sound G (R blk)) fun _ => Sound G Q := by
  induction gs with
  | nil => exact Spec.fail fun _ hs => hs
  | cons g gs ih =>
    intro s hs
    have hlt : g < s.groups := by
      have := hgs g mem_cons_self
      rwa [← hs.geom] at this
    obtain ⟨r, w, bit, hbit, -, hclear, hok⟩ | ⟨rc, r, w, -, herr⟩ := allocBlockInGroup_cases s g
    · rw [run_allocDirBlockFrom_cons, hok]
      exact (hs.takeBlock hlt hbit hclear hR).withEnv r w
    · rw [run_allocDirBlockFrom_cons, herr]
      dsimp only
      split
      · exact hs.withEnv r w
      · exact ih (fun g' hg' => hgs g' (.tail g hg')) _ (hs.withEnv r w)

end

/-- An inode whose pointers are in order is written. -/
theorem spec_writeInode (ino : Nat) (n : Ext2Inode) :
    Spec (Sound G fun V => V.Extends ino n) (writeInode ino n)
      (fun _ => Sound G fun _ => True) fun _ => Sound G fun _ => True := by
  intro s hs
  obtain ⟨r, w, hino, hok⟩ | ⟨rc, r, w, -, herr⟩ := writeInode_cases s ino n
  · rw [hok]
    refine Sound.withEnv (hs.moved geom_store rfl ?_ trivial) r w
    show (s.storeInode ino n).volume.Consistent
    exact hs.now.putInode hino hs.held
  · rw [herr]
    exact hs.forget.withEnv r w

/-- The inode that is read is that of the device. -/
theorem spec_readInode (ino : Nat) :
    Spec (Sound G Q) (readInode ino)
      (fun n => Sound G fun V => Q V ∧ V.geom.ValidIno ino ∧ V.inodeAt ino = n)
      fun _ => Sound G Q := by
  intro s hs
  obtain ⟨r, hino, hok⟩ | ⟨rc, r, -, herr⟩ := readInode_cases s ino
  · rw [hok]
    exact Sound.withEnv ⟨hs.geom, hs.now, hs.trail, hs.held, geom_validIno.2 hino, volume_inodeAt⟩ r
      s.writes
  · rw [herr]
    exact hs.withEnv r s.writes

/-! ## Writing a file -/

/-- The inode in memory is that of a file, and may be written. -/
def Held (ino : Nat) (n : Ext2Inode) (V : Volume) : Prop := V.Extends ino n ∧ n.IsFile

theorem stable_held : Stable (Held ino n) := fun hf h => ⟨hf.extends_mono h.1, h.2⟩

theorem keeps_spliceAndJournal {inoff : Nat} {src : List UInt8} {zeroFirst : Bool} (hQ : Stable Q)
    (hwr : ∀ V : Volume, V.Consistent → Q V → V.Writable blk) :
    Keeps (Sound G Q) (spliceAndJournal blk inoff src zeroFirst) := by
  have hwrite : ∀ buf, Keeps (Sound G Q) (journaledWrite blk (Image.store buf ⟨inoff, src⟩)) :=
    fun buf => keeps_journaledWrite hQ fun V _ hc hV => (hwr V hc hV).frame hc
  exact Keeps.ite (fun _ => hwrite _) fun _ =>
    Keeps.bind (syncClosed_sound hQ).readBlock hwrite

/-- A hole gets a block of its own. -/
theorem spec_fillHole {l : Nat} (hl : l < 12) :
    Spec (Sound G (Held ino n)) (fillHole n l)
      (fun n' => Sound G fun V => Held ino n' V ∧ n'.block l ≠ 0) fun _ => Sound G
        fun _ => True := by
  refine Spec.readBind fun s0 _ => ?_
  refine Spec.bind (Q := fun blk => Sound G fun V =>
    Held ino (n.setBlock l (UInt32.ofNat blk)) V ∧ UInt32.ofNat blk ≠ 0) ?_ fun blk => ?_
  · refine Spec.post (spec_allocBlock fun {V g bit} _ hc hg hbit hclear hheld => ?_)
      (fun _ _ h => h) fun _ _ h => h.forget
    have hin := (Volume.inRange_blockOf hg hbit).1
    refine ⟨⟨hheld.1.fill hc hg hbit hclear hl, ?_⟩, fun h0 => hc.ne_zero hin hclear ?_⟩
    · exact (isFile_congr mode_setBlock).2 hheld.2
    · rw [← UInt32.toNat_ofNat_of_lt' (hc.lt_of_inRange hin), h0]
      rfl
  · refine Spec.ret fun s hs => hs.mono fun V ⟨⟨hext, hfile⟩, h0⟩ => ⟨⟨?_, ?_⟩, ?_⟩
    · exact hext.congr mode_setBlocks fun _ => block_setBlocks
    · exact (isFile_congr mode_setBlocks).2 hfile
    · rwa [block_setBlocks, block_setBlock, if_pos rfl]

/-- One piece of a write: the hole is filled, then the data goes to the block. -/
theorem spec_writeSpan {data : List UInt8} {offset : Nat} {sp : Span}
    (hsp : sp.block G.blockSize < 12) :
    Spec (Sound G (Held ino n)) (writeSpan data offset n sp) (fun n' => Sound G (Held ino n'))
      fun _ => Sound G fun _ => True := by
  refine Spec.readBind fun s0 hs0 => ?_
  have hbs : s0.blockSize = G.blockSize := congrArg Ext2Geometry.blockSize hs0.geom
  rw [hbs]
  -- the block is there before the data is written
  have hdata : ∀ n' zeroFirst, Spec
      (Sound G fun V => Held ino n' V ∧ n'.block (sp.block G.blockSize) ≠ 0)
      (do
        spliceAndJournal (n'.block (sp.block G.blockSize)).toNat (sp.inoff G.blockSize)
          ((data.drop (sp.pos - offset)).take sp.len) zeroFirst
        pure n') (fun n' => Sound G (Held ino n')) fun _ => Sound G fun _ => True := by
    intro n' zeroFirst
    have hstable : Stable fun V => Held ino n' V ∧ n'.block (sp.block G.blockSize) ≠ 0 :=
      fun hf h => ⟨stable_held hf h.1, h.2⟩
    refine Spec.bind (Spec.post (keeps_spliceAndJournal hstable fun V hc hV => ?_) (fun _ _ h => h)
      fun _ _ h => h.forget) fun _ => Spec.ret fun s hs => hs.mono fun V hV => hV.1
    exact hV.1.1.writable hc hV.1.2 hsp hV.2
  refine Spec.ite (fun hole => ?_) fun hole => ?_
  · exact Spec.bind (spec_fillHole hsp) fun n' => hdata n' _
  · refine Spec.pre (hdata n _) fun s hs => hs.mono fun V hV => ⟨hV, ?_⟩
    simpa using hole

/-- Nothing more than that the device was consistent all the time. -/
abbrev Safe (G : Ext2Geometry) : Ext2 → Prop := Sound G fun _ => True

theorem syncClosed_safe : SyncClosed G (Safe G) := syncClosed_sound stable_true

/-- An inode that could be read may be written back. -/
theorem spec_attempt_readInode {E : Int → Ext2 → Prop} (ino : Nat) :
    Spec (Safe G) (attempt (readInode ino))
      (fun found => Sound G fun V => ∀ n, found = some n → V.Extends ino n) E := by
  refine Spec.attempt (Spec.post (spec_readInode ino) (fun n s hs => ?_) fun _ s hs => ?_)
  · refine hs.mono fun V hV n' hn' => ?_
    cases hn'
    exact hV.2.2 ▸ Volume.Extends.refl hV.2.1
  · exact hs.mono fun V _ n' hn' => by cases hn'

/-- An inode is written, with fields changed that are no pointers. -/
theorem spec_writeInode_congr {n' : Ext2Inode} (hmode : n'.mode = n.mode)
    (hblock : ∀ i, n'.block i = n.block i) :
    Spec (Sound G fun V => V.Extends ino n) (writeInode ino n') (fun _ => Safe G) fun _ => Safe G :=
  Spec.pre (spec_writeInode ino n') fun _ hs => hs.mono fun _ hV => hV.congr hmode hblock

variable {parent child : Nat} {dir : Ext2Inode} {name : FileName} {fileType : UInt8} {mode : UInt16}
  {now : UInt32}

/-- The loop over the pieces, and the inode in the end. -/
theorem keeps_inodeWriteData {data : List UInt8} {offset : Nat} :
    Keeps (Safe G) (inodeWriteData ino data offset now) := by
  refine Keeps.readBind fun s0 hs0 => Keeps.ite (fun _ => Keeps.ret) fun _ =>
    Keeps.ite (fun _ => Keeps.fail) fun hfit => ?_
  have hbs : s0.blockSize = G.blockSize := congrArg Ext2Geometry.blockSize hs0.geom
  rw [hbs] at hfit ⊢
  have hpos : 0 < G.blockSize := by
    have := hs0.now.layout.blockSize_pos
    rwa [← hbs]
  refine Spec.bind (spec_attempt_readInode ino) fun found => ?_
  cases found with
  | none => exact Spec.fail fun _ hs => hs.forget
  | some n =>
    refine Spec.ite (fun _ => Spec.fail fun _ hs => hs.forget) fun hreg => ?_
    have hfile : n.IsFile := .inl (by simpa using hreg)
    refine Spec.bind
      (Spec.pre (Spec.foldlM (R := fun n => Sound G (Held ino n)) (fun n sp hsp => ?_) n)
      fun s hs => hs.mono fun V hV => ⟨hV n rfl, hfile⟩) fun n' => ?_
    · refine spec_writeSpan ((inBlock_of_mem_spans hpos hsp).block_lt ?_)
      rw [ext2NdirBlocks] at hfit
      omega
    · refine Spec.bind (Spec.pre (spec_writeInode_congr ?_ fun i => ?_) fun s hs =>
        hs.mono fun V hV => hV.1) fun _ => Spec.bind syncClosed_safe.syncLocked fun _ =>
          Spec.ret fun _ hs => hs
      · rw [mode_touch]
        split
        · exact mode_setSize
        · rfl
      · rw [block_touch]
        split
        · exact block_setSize
        · rfl

/-! ## Directories -/

/-- The blocks of the directory are tried in turn. -/
theorem keeps_addInBlocks {ls : List Nat} (hls : ∀ l ∈ ls, l < 12) :
    Keeps (Sound G (Held ino dir)) (addInBlocks dir name child fileType ls) := by
  induction ls with
  | nil => exact Keeps.ret
  | cons l ls ih =>
    refine Keeps.readBind fun s0 _ => Keeps.ite (fun _ => Keeps.ret) fun h0 => ?_
    refine Keeps.bind (syncClosed_sound stable_held).readBlock fun buf => ?_
    refine Keeps.ite (fun _ => Keeps.fail) fun _ => ?_
    cases findRoom s0.blockSize buf (dirEntrySize name.length) s0.blockSize 0 with
    | none => exact ih fun l' hl' => hls l' (.tail l hl')
    | some off =>
      have hne : dir.block l ≠ 0 := fun h => h0 (by rw [h]; rfl)
      refine Keeps.bind (Keeps.attempt (keeps_journaledWrite stable_held fun V _ hc hV => ?_))
        fun done => ?_
      · exact (hV.1.writable hc hV.2 (hls l mem_cons_self) hne).frame hc
      · cases done with
        | none => exact Keeps.fail
        | some _ => exact Keeps.bind (syncClosed_sound stable_held).syncLocked fun _ => Keeps.ret

/-- A new block of a directory is marked, written and referred to, in this order. -/
theorem spec_addBlock :
    Spec (Sound G (Held parent dir)) (addBlock parent dir name child fileType now)
      (fun _ => Safe G) fun _ => Safe G := by
  refine Spec.readBind fun s0 hs0 => ?_
  cases hslot : (List.range ext2NdirBlocks).find? fun i => dir.block i = 0 with
  | none => exact Spec.fail fun _ hs => hs.forget
  | some slot =>
    have hlt : slot < 12 := mem_range.1 (mem_of_find?_eq_some hslot)
    refine Spec.bind (Spec.post (spec_allocDirBlockFrom
      (R := fun blk V => V.Extends parent (dir.setBlock slot (UInt32.ofNat blk)) ∧ V.Spare blk)
      (fun {V g bit} _ hc hg hbit hclear hheld => ?_) fun g hg => ?_) (fun _ _ h => h)
        fun _ _ h => h.forget) fun blk => ?_
    · exact ⟨hheld.1.fill hc hg hbit hclear hlt, Volume.spare_mark hc hg hbit hclear⟩
    · rw [← hs0.geom]
      exact mem_range.1 hg
    · have hstable : Stable fun V => V.Extends parent (dir.setBlock slot (UInt32.ofNat blk)) ∧
          V.Spare blk := fun hf h => ⟨hf.extends_mono h.1, hf.spare h.2⟩
      refine Spec.bind (Spec.post (Keeps.attempt (keeps_journaledWrite hstable fun V _ hc hV =>
        hV.2.writable.frame hc)) (fun _ _ h => h) fun _ _ h => h.forget) fun done => ?_
      cases done with
      | none => exact Spec.fail fun _ hs => hs.forget
      | some _ =>
        refine Spec.bind (Spec.pre (spec_writeInode_congr
          ?_ fun i => ?_) fun s hs =>
            hs.mono fun V hV => hV.1) fun _ => syncClosed_safe.syncLocked
        · rw [mode_touch, mode_setSize, mode_setBlocks]
        · rw [block_touch, block_setSize, block_setBlocks]

/-- Both directory operations read the directory first and go on with its inode. -/
theorem spec_withDir {rest : Ext2Inode → Ext2M Unit} (h : ∀ dir,
    Spec (Sound G (Held parent dir)) (rest dir) (fun _ => Safe G) fun _ => Safe G) :
    Keeps (Safe G) (do
      match ← attempt (readInode parent) with
      | none => throw (-Errno.EIO)
      | some dir => if dir.isDir = false then throw (-Errno.ENOTDIR) else rest dir) := by
  refine Spec.bind (spec_attempt_readInode parent) fun found => ?_
  cases found with
  | none => exact Spec.fail fun _ hs => hs.forget
  | some dir =>
    refine Spec.ite (fun _ => Spec.fail fun _ hs => hs.forget) fun hdir => ?_
    have hfile : dir.IsFile := .inr (by simpa using hdir)
    exact Spec.pre (h dir) fun s hs => hs.mono fun V hV => ⟨hV dir rfl, hfile⟩

theorem keeps_dirAddEntry : Keeps (Safe G) (dirAddEntry parent name child fileType now) := by
  refine Keeps.ite (fun _ => Keeps.fail) fun _ => Keeps.ite (fun _ => Keeps.fail) fun _ => ?_
  refine spec_withDir fun dir => ?_
  refine Spec.bind (Spec.post (keeps_addInBlocks fun l hl => mem_range.1 hl)
    (fun _ _ h => h) fun _ _ h => h.forget) fun placed => ?_
  exact Spec.ite (fun _ => Spec.ret fun _ hs => hs.forget) fun _ => spec_addBlock

/-- The blocks of the directory are searched in turn. -/
theorem spec_removeInBlocks {ls : List Nat} (hls : ∀ l ∈ ls, l < 12) :
    Spec (Sound G (Held parent dir)) (removeInBlocks parent dir name now ls)
      (fun _ => Safe G) fun _ => Safe G := by
  induction ls with
  | nil => exact Spec.fail fun _ hs => hs.forget
  | cons l ls ih =>
    refine Spec.readBind fun s0 _ => Spec.ite (fun _ => Spec.fail fun _ hs => hs.forget)
      fun h0 => ?_
    refine Spec.bind (Spec.post (syncClosed_sound stable_held).readBlock (fun _ _ h => h)
      fun _ _ h => h.forget) fun buf => ?_
    cases findName s0.blockSize buf name s0.blockSize none 0 with
    | none => exact ih fun l' hl' => hls l' (.tail l hl')
    | some found =>
      have hne : dir.block l ≠ 0 := fun h => h0 (by rw [h]; rfl)
      refine Spec.bind (Spec.post (Keeps.attempt (keeps_journaledWrite stable_held
        fun V _ hc hV => ?_)) (fun _ _ h => h) fun _ _ h => h.forget) fun done => ?_
      · exact (hV.1.writable hc hV.2 (hls l mem_cons_self) hne).frame hc
      · cases done with
        | none => exact Spec.fail fun _ hs => hs.forget
        | some _ =>
          refine Spec.bind (Spec.pre (spec_writeInode_congr mode_touch
            fun _ => block_touch) fun s hs => hs.mono fun V hV => hV.1) fun _ =>
              syncClosed_safe.syncLocked

theorem keeps_opUnlink : Keeps (Safe G) (opUnlink parent name now) := by
  refine Keeps.ite (fun _ => Keeps.fail) fun _ => ?_
  exact spec_withDir fun dir => spec_removeInBlocks fun l hl => mem_range.1 hl

theorem keeps_adjustLinks : Keeps (Safe G) (adjustLinks ino now) := by
  refine Spec.bind (spec_attempt_readInode ino) fun found => ?_
  cases found with
  | none => exact Spec.fail fun _ hs => hs.forget
  | some n =>
    refine Spec.bind (Spec.pre (spec_writeInode_congr ?_ fun i => ?_) fun s hs =>
      hs.mono fun V hV => hV n rfl) fun _ => syncClosed_safe.syncLocked
    · rw [mode_setCtime, mode_setLinksCount]
    · rw [block_setCtime, block_setLinksCount]

/-! ## New inodes -/

theorem keeps_allocInode_safe : Keeps (Safe G) (allocInode mode now) := by
  refine Keeps.readBind fun s0 hs0 => Keeps.bind (fun s hs => ?_) fun ino => ?_
  · obtain ⟨r, w, bit, g, hg, -, -, -, -, hok⟩ | ⟨rc, r, w, -, herr⟩ :=
      allocInodeFrom_cases (List.range s0.groups) s
    · rw [hok]
      refine (hs.framed stable_true geom_takeInode rfl ?_).withEnv r w
      rw [volume_takeInode]
      refine Volume.Frame.putMeta hs.now (.inodeBitmap g) ?_ rfl (fun _ h => by cases h)
        fun _ _ h => by cases h
      show g < s.geom.groups
      rw [hs.geom, ← hs0.geom]
      exact mem_range.1 hg
    · rw [herr]
      exact hs.withEnv r w
  · refine Keeps.bind (Spec.pre (spec_writeInode ino _) fun s hs => hs.mono fun V _ => ?_)
      fun _ => ?_
    · exact Volume.Extends.none fun _ _ => block_fresh
    · exact Keeps.iteThen (fun _ => Keeps.update fun s hs => hs.same geom_addUsedDir rfl rfl)
        fun _ => Keeps.bind syncClosed_safe.syncLocked fun _ => Keeps.ret

theorem keeps_opCreate : Keeps (Safe G) (opCreate parent name mode now) :=
  Keeps.bind keeps_allocInode_safe fun _ => Keeps.bind keeps_dirAddEntry fun _ => Keeps.ret

theorem keeps_opMkdir : Keeps (Safe G) (opMkdir parent name mode now) := by
  refine Keeps.bind keeps_allocInode_safe fun ino => Keeps.bind keeps_dirAddEntry fun _ => ?_
  refine Keeps.bind keeps_dirAddEntry fun _ => Keeps.bind keeps_dirAddEntry fun _ => ?_
  exact Keeps.bind (Keeps.attempt keeps_adjustLinks) fun _ =>
    Keeps.bind (Keeps.attempt keeps_adjustLinks) fun _ => Keeps.ret

/-! ## Truncation -/

/-- No block of a list is given back: each is none that has a bit, or its bitmap
cannot be read, or the bit is clear, or the bitmap cannot be written. -/
def Kept (s : Ext2) : List Nat → List Bool → List Int → Prop
  | [], _, _ => True
  | blk :: blks, r, w =>
    if blk = 0 ∨ ¬ s.geom.InRange blk then Kept s blks r w
    else if r.headD true = false ∨ s.blockBit blk = false then Kept s blks r.tail w
    else w.headD 0 < 0 ∧ Kept s blks r.tail w.tail

instance Kept.decidable (s : Ext2) :
    ∀ (blks : List Nat) (r : List Bool) (w : List Int), Decidable (s.Kept blks r w)
  | [], _, _ => .isTrue trivial
  | blk :: blks, r, w =>
    have := Kept.decidable s blks r w
    have := Kept.decidable s blks r.tail w
    have := Kept.decidable s blks r.tail w.tail
    inferInstanceAs (Decidable (if blk = 0 ∨ ¬ s.geom.InRange blk then s.Kept blks r w
      else if r.headD true = false ∨ s.blockBit blk = false then s.Kept blks r.tail w
      else w.headD 0 < 0 ∧ s.Kept blks r.tail w.tail))

/-- The slots that a truncation empties. -/
def emptied (s : Ext2) (newSize : Nat) : List Nat :=
  (List.range ext2NdirBlocks).drop (min ((newSize + s.blockSize - 1) / s.blockSize) ext2NdirBlocks)

/-- A truncation that gives no block back; the first request is that for the inode. -/
def TruncateKeeps (s : Ext2) (ino newSize : Nat) : Prop :=
  ext2NdirBlocks * s.blockSize < newSize ∨ ¬ s.ValidIno ino ∨ s.reads.headD true = false ∨
    s.Kept ((s.emptied newSize).map fun i => ((s.inodeAt ino).block i).toNat) s.reads.tail s.writes

theorem not_inRange_iff {blk : Nat} : ¬ s.geom.InRange blk ↔
    blk < s.firstDataBlock ∨ s.groups ≤ (blk - s.firstDataBlock) / s.blocksPerGroup := by
  show ¬ (s.firstDataBlock ≤ blk ∧ (blk - s.firstDataBlock) / s.blocksPerGroup < s.groups) ↔ _
  omega

/-- A read of an inode fails only with the device. -/
theorem run_readInode (hino : s.ValidIno ino) : (readInode ino).run s =
    if s.reads.headD true then .ok (s.inodeAt ino) (s.withEnv s.reads.tail s.writes)
    else .error (-Errno.EIO) (s.withEnv s.reads.tail s.writes) := by
  have h1 : ¬ (ino = 0 ∨ s.inodesCount < ino) := by
    have := hino.1
    have := hino.2.1
    omega
  have h2 : ¬ s.groups ≤ s.inodeGroup ino := not_le.2 hino.2.2
  have hread := run_readBlock s (s.inodeBlk ino)
  rw [readInode, run_get_bind, if_neg h1, if_neg h2]
  split
  · next h =>
    rw [if_pos h] at hread
    rw [run_bind_ok hread]
    rfl
  · next h =>
    rw [if_neg h] at hread
    rw [run_bind_error hread]

/-- A pointer whose block is kept only leaves the inode in memory. -/
theorem run_truncateBlock_kept {blks : List Nat}
    (h : s.Kept ((n.block i).toNat :: blks) s.reads s.writes) :
    ∃ r w n', (truncateBlock n i).run s = .ok n' (s.withEnv r w) ∧ s.Kept blks r w ∧
      (n' = n ∨ n' = n.setBlock i 0) := by
  rw [Kept] at h
  unfold truncateBlock
  rw [run_get_bind]
  by_cases h0 : (n.block i).toNat = 0
  · rw [if_pos (.inl h0)] at h
    rw [if_pos h0]
    exact ⟨_, _, n, rfl, h, .inl rfl⟩
  rw [if_neg h0]
  by_cases hin : s.geom.InRange (n.block i).toNat
  · have hout : ¬ ((n.block i).toNat < s.firstDataBlock ∨
        s.groups ≤ ((n.block i).toNat - s.firstDataBlock) / s.blocksPerGroup) :=
      fun hc => not_inRange_iff.2 hc hin
    rw [if_neg (not_or.2 ⟨h0, not_not.2 hin⟩)] at h
    rw [if_neg hout]
    have hread := run_readBlock s
      (s.blockBitmap (((n.block i).toNat - s.firstDataBlock) / s.blocksPerGroup))
    cases hr : s.reads.headD true with
    | false =>
      -- the bitmap cannot be read, and the block is not given back
      rw [if_pos (.inl hr)] at h
      rw [hr] at hread
      rw [run_bind_ok (run_attempt_error hread)]
      exact ⟨_, _, _, rfl, h, .inr rfl⟩
    | true =>
      rw [hr] at hread
      rw [run_bind_ok (run_attempt_ok hread)]
      dsimp only
      cases hb : s.blockBit (n.block i).toNat with
      | false =>
        -- the block was free already
        rw [if_pos (.inr hb)] at h
        rw [if_pos (show Bitmap.get _ _ = false from hb)]
        exact ⟨_, _, _, rfl, h, .inr rfl⟩
      | true =>
        rw [if_neg (by rw [hr, hb]; decide)] at h
        have hset : ¬ Bitmap.get (s.contents (s.blockBitmap
            (((n.block i).toNat - s.firstDataBlock) / s.blocksPerGroup)))
            (((n.block i).toNat - s.firstDataBlock) % s.blocksPerGroup) = false := by
          show ¬ s.blockBit _ = false
          rw [hb]
          decide
        rw [if_neg hset]
        -- the bitmap cannot be written
        have hwrite : ∀ blk buf, (journaledWrite blk buf).run (s.withEnv s.reads.tail s.writes) =
            .error (s.writes.headD 0) (s.withEnv s.reads.tail s.writes.tail) := fun blk buf =>
          (run_journaledWrite _ blk buf).trans (if_pos h.1)
        rw [run_bind_ok (run_attempt_error (hwrite _ _))]
        exact ⟨_, _, _, rfl, h.2, .inr rfl⟩
  · rw [if_pos (.inr hin)] at h
    rw [if_pos (not_inRange_iff.1 hin)]
    exact ⟨_, _, _, rfl, h, .inr rfl⟩

theorem kept_withEnv {blks : List Nat} {r' : List Bool} {w' : List Int} :
    (s.withEnv r' w').Kept blks r w ↔ s.Kept blks r w := by
  induction blks generalizing r w with
  | nil => exact Iff.rfl
  | cons blk blks ih =>
    rw [Kept, ih, ih, ih]
    rfl

/-- The loop of a truncation that gives no block back. -/
theorem run_truncateBlocks_kept {is : List Nat} (hnodup : is.Nodup)
    (h : s.Kept (is.map fun i => (n.block i).toNat) s.reads s.writes) :
    ∃ r w n', (is.foldlM truncateBlock n).run s = .ok n' (s.withEnv r w) ∧ n'.mode = n.mode ∧
      ∀ i, n'.block i = n.block i ∨ n'.block i = 0 := by
  induction is generalizing s n with
  | nil => exact ⟨s.reads, s.writes, n, rfl, rfl, fun _ => .inl rfl⟩
  | cons i is ih =>
    obtain ⟨hi, hnodup⟩ := nodup_cons.1 hnodup
    obtain ⟨r, w, n1, hrun, hkept, hn1⟩ := run_truncateBlock_kept h
    have hmode : n1.mode = n.mode := by
      obtain rfl | rfl := hn1
      · rfl
      · exact mode_setBlock
    have hblock : ∀ j, n1.block j = n.block j ∨ j = i ∧ n1.block j = 0 := by
      obtain rfl | rfl := hn1
      · exact fun _ => .inl rfl
      · intro j
        rw [block_setBlock]
        split
        · next hj => exact .inr ⟨hj, rfl⟩
        · exact .inl rfl
    -- the pointers that come are those of the inode at the start
    have hrest : is.map (fun i => (n1.block i).toNat) = is.map fun i => (n.block i).toNat :=
      map_congr_left fun j hj => by
        obtain h | ⟨rfl, -⟩ := hblock j
        · rw [h]
        · exact absurd hj hi
    obtain ⟨r', w', n', hrun', hmode', hblock'⟩ := ih hnodup
      (by rw [hrest]; exact kept_withEnv.2 hkept)
    refine ⟨r', w', n', ?_, hmode'.trans hmode, fun j => ?_⟩
    · rw [foldlM_cons, run_bind_ok hrun, hrun']
      rfl
    · obtain hj | hj := hblock' j
      · obtain hj' | ⟨-, hj'⟩ := hblock j
        · exact .inl (hj.trans hj')
        · exact .inr (hj.trans hj')
      · exact .inr hj

/-- A truncation that gives no block back is safe at every point. -/
theorem Sound.inodeTruncate {newSize : Nat} (h : Safe G s) (hk : s.TruncateKeeps ino newSize) :
    Safe G (finalState ((inodeTruncate ino newSize now).run s)) := by
  rw [Ext2.inodeTruncate, run_get_bind]
  split
  · exact h
  next hfit =>
  by_cases hino : s.ValidIno ino
  · have hread := run_readInode hino
    cases hr : s.reads.headD true with
    | false =>
      rw [hr] at hread
      rw [run_bind_ok (run_attempt_error hread)]
      exact h.withEnv _ _
    | true =>
      rw [hr] at hread
      rw [run_bind_ok (run_attempt_ok hread)]
      have hkept : s.Kept ((s.emptied newSize).map fun i => ((s.inodeAt ino).block i).toNat)
          s.reads.tail s.writes := by
        obtain hk | hk | hk | hk := hk
        · exact absurd hk hfit
        · exact absurd hino hk
        · rw [hr] at hk
          cases hk
        · exact hk
      have hnodup : (s.emptied newSize).Nodup := nodup_range.sublist (drop_sublist _ _)
      obtain ⟨r, w, n', hrun, hmode, hblock⟩ := run_truncateBlocks_kept
        (s := s.withEnv s.reads.tail s.writes) hnodup (kept_withEnv.2 hkept)
      have hrefl : s.volume.Extends ino (s.inodeAt ino) :=
        volume_inodeAt ▸ Volume.Extends.refl (geom_validIno.2 hino)
      have hext : s.volume.Extends ino n' := hrefl.sub hmode fun i _ => hblock i
      have hs : Sound G (fun V => V.Extends ino n') s := ⟨h.geom, h.now, h.trail, hext⟩
      -- the inode that is written has lost pointers, and no block its mark
      have hwrite : Spec (Sound G fun V => V.Extends ino n') (do
          writeInode ino ((n'.setSize (UInt32.ofNat newSize)).touch now)
          syncLocked) (fun _ => Safe G) fun _ => Safe G := by
        refine Spec.bind (spec_writeInode_congr ?_ fun i => ?_) fun _ => syncClosed_safe.syncLocked
        · rw [mode_touch, mode_setSize]
        · rw [block_touch, block_setSize]
      show Safe G
        (finalState (((s.emptied newSize).foldlM truncateBlock (s.inodeAt ino) >>= fun n => do
        writeInode ino ((n.setSize (UInt32.ofNat newSize)).touch now)
        syncLocked).run (s.withEnv s.reads.tail s.writes)))
      rw [run_bind_ok hrun]
      exact hwrite.finalState (hs.withEnv r w)
  · obtain ⟨r, hvalid, -⟩ | ⟨rc, r, -, herr⟩ := readInode_cases s ino
    · exact absurd hvalid hino
    · rw [run_bind_ok (run_attempt_error herr)]
      exact h.withEnv _ _

/-! ## Runs -/

/-- The operations of ext2_ops.c that write. -/
inductive FsEvent where
  | create (parent : Nat) (name : FileName) (mode : UInt16) (now : UInt32)
  | mkdir (parent : Nat) (name : FileName) (mode : UInt16) (now : UInt32)
  | write (ino : Nat) (data : List UInt8) (offset : Nat) (now : UInt32)
  | unlink (parent : Nat) (name : FileName) (now : UInt32)
  | truncate (ino newSize : Nat) (now : UInt32)

/-- The state after an operation, however it ends. -/
def fsStep (s : Ext2) : FsEvent → Ext2
  | .create parent name mode now => finalState ((opCreate parent name mode now).run s)
  | .mkdir parent name mode now => finalState ((opMkdir parent name mode now).run s)
  | .write ino data offset now => finalState ((inodeWriteData ino data offset now).run s)
  | .unlink parent name now => finalState ((opUnlink parent name now).run s)
  | .truncate ino newSize now => finalState ((inodeTruncate ino newSize now).run s)

/-- No truncation gives a block back. -/
def FreesNothing (s : Ext2) : FsEvent → Prop
  | .truncate ino newSize _ => s.TruncateKeeps ino newSize
  | _ => True

/-- What a crash leaves: every block of a file has a bit, which is set, so that no
search for a block after the next mount answers with it. -/
structure CrashOk (V : Volume) : Prop where
  marked : ∀ ino p blk, V.Refers ino p blk → V.geom.InRange blk ∧ V.blockBit blk = true
  kept : ∀ (s s' : Ext2) (g blk : Nat), s.volume = V → g < s.groups →
    (allocBlockInGroup g).run s = .ok blk s' → ∀ ino p, ¬ V.Refers ino p blk

/-- The search answers with a block whose bit is clear. -/
theorem blockBit_of_allocBlockInGroup (hg : g < s.groups)
    (h : (allocBlockInGroup g).run s = .ok blk s') : s.volume.blockBit blk = false := by
  obtain ⟨r, w, bit, hbit, -, hclear, hok⟩ | ⟨rc, r, w, -, herr⟩ := allocBlockInGroup_cases s g
  · rw [hok] at h
    cases h
    obtain ⟨-, hdiv, hmod⟩ := Volume.inRange_blockOf (V := s.volume) hg hbit
    show s.volume.blockBit (s.volume.geom.blockOf g bit) = false
    rw [Volume.blockBit, hdiv, hmod]
    exact hclear
  · rw [herr] at h
    cases h

theorem crashOk_of_consistent {V : Volume} (hc : V.Consistent) : CrashOk V where
  marked _ _ _ hr := ⟨hc.inRange hr, hc.used hr⟩
  kept s s' g blk hV hg hrun ino p hr := by
    have hclear := blockBit_of_allocBlockInGroup hg hrun
    rw [hV, hc.used hr] at hclear
    cases hclear

theorem Sound.fsStep (h : Safe G s) {e : FsEvent} (he : s.FreesNothing e) :
    Safe G (s.fsStep e) := by
  cases e with
  | create parent name mode now => exact keeps_opCreate.finalState h
  | mkdir parent name mode now => exact keeps_opMkdir.finalState h
  | write ino data offset now => exact keeps_inodeWriteData.finalState h
  | unlink parent name now => exact keeps_opUnlink.finalState h
  | truncate ino newSize now => exact h.inodeTruncate he

/-! ### A small file system with a file

The file system of `small` after inode 2 became a file with block 6. -/

def fileImage : Image UInt8 := fun a =>
  ([(3 * 1024, 0x3F), (4 * 1024, 0x03), (5 * 1024 + 128, 0xA4), (5 * 1024 + 129, 0x81),
    (5 * 1024 + 132, 5), (5 * 1024 + 154, 1), (5 * 1024 + 156, 2), (5 * 1024 + 168, 6),
    (6 * 1024, 0x68), (6 * 1024 + 1, 0x65)].lookup a).getD 0

def fileFs (reads : List Bool) (writes : List Int) : Ext2 :=
  { ((small reads writes).addFreeBlocks 0 (-1) (-1)).takeFreeInode 0 with image := fileImage }

theorem geom_fileFs : (fileFs r w).geom = (small [] []).geom := by
  have h : (fileFs r w).geom = (((small r w).addFreeBlocks 0 (-1) (-1)).takeFreeInode 0).geom :=
    geom_congr rfl rfl
  rw [h, geom_takeFreeInode, geom_addFreeBlocks, geom_small]

/-- The device of the small file system. -/
def fileVolume : Volume := ⟨(small [] []).geom, fileImage⟩

theorem volume_fileFs : (fileFs r w).volume = fileVolume := Volume.ext geom_fileFs rfl

/-- The only block of a file is block 6. -/
theorem refers_fileVolume {p : BlockPath} (h : fileVolume.Refers ino p blk) :
    ino = 2 ∧ p = ⟨0, []⟩ ∧ blk = 6 := by
  obtain ⟨hfile, hvalid, hat, hne⟩ := h
  have hino : ino = 2 := by
    have hlt : ino < 9 := Nat.lt_succ_of_le hfile.1.2.1
    exact (by decide +kernel : ∀ ino < 9, fileVolume.IsFile ino → ino = 2) ino hlt hfile
  subst hino
  have hslot : ((fileVolume.inodeAt 2).block p.slot).toNat = if p.slot = 0 then 6 else 0 :=
    (by decide +kernel : ∀ i < 15, ((fileVolume.inodeAt 2).block i).toNat = if i = 0 then 6 else 0)
      p.slot hvalid.1
  rw [Volume.blockAt, hslot] at hat
  obtain ⟨slot, idx⟩ := p
  obtain rfl | h0 := eq_or_ne slot 0
  · have hidx : idx = [] := eq_nil_of_length_eq_zero (Nat.le_zero.1 hvalid.2.1)
    subst hidx
    exact ⟨rfl, rfl, hat.symm⟩
  · rw [if_neg h0, Volume.foldl_pointer_zero] at hat
    exact absurd hat.symm hne

/-- The one file has one block, and it is marked. -/
theorem consistent_fileVolume : fileVolume.Consistent where
  layout := layout_small
  first := by decide
  inRange h := by
    obtain ⟨-, -, rfl⟩ := refers_fileVolume h
    decide
  used h := by
    obtain ⟨-, -, rfl⟩ := refers_fileVolume h
    decide +kernel
  data h := by
    obtain ⟨-, -, rfl⟩ := refers_fileVolume h
    rintro ⟨loc, hloc, hblk⟩
    obtain rfl | rfl | rfl | rfl | rfl := metaLoc_small hloc <;> exact absurd hblk (by decide)
  unique h h' := by
    obtain ⟨rfl, rfl, -⟩ := refers_fileVolume h
    obtain ⟨rfl, rfl, -⟩ := refers_fileVolume h'
    exact ⟨rfl, rfl⟩
  metaUsed := by
    rintro blk ⟨loc, hloc, rfl⟩ -
    obtain rfl | rfl | rfl | rfl | rfl := metaLoc_small hloc <;> decide +kernel

theorem refers_six {m : Image UInt8} (h : (⟨(small [] []).geom, m⟩ : Volume).IsFile 2 ∧
      (⟨(small [] []).geom, m⟩ : Volume).blockAt ((⟨(small [] []).geom, m⟩ : Volume).inodeAt 2)
        ⟨0, []⟩ = 6) : (⟨(small [] []).geom, m⟩ : Volume).Refers 2 ⟨0, []⟩ 6 :=
  ⟨h.1, BlockPath.valid_slot (by decide), h.2, by decide⟩

/-! ### The theorem -/

/-- Whatever the operations and the answers of the device: where no truncation gives a
block back, every image the device goes through is fit for a crash. -/
theorem crashOk_of_run {es : List FsEvent} (hc : s.volume.Consistent) (hnew : s.trail = [])
    (hrun : Along fsStep FreesNothing s es) :
    ∀ m ∈ (run fsStep s es).trail, CrashOk ⟨s.geom, m⟩ := by
  have hstep : ∀ s' e, Safe s.geom s' → s'.FreesNothing e → Safe s.geom (s'.fsStep e) :=
    fun _ _ hs he => hs.fsStep he
  have hstart : Safe s.geom s := ⟨rfl, hc, by rw [hnew]; exact fun _ h => absurd h not_mem_nil,
    trivial⟩
  intro m hm
  exact crashOk_of_consistent ((run_invariant hstep hstart hrun).trail m hm)

/-- A truncation that empties no slot, and a write into a hole behind it. -/
theorem crashOk_of_run_fileFs :
    (fileFs [] []).volume.Consistent ∧
      let es := [.truncate 2 1024 9, .write 2 [0x41] 2000 10]
      Along fsStep FreesNothing (fileFs [] []) es ∧
        (run fsStep (fileFs [] []) es).trail.length = 8 ∧
        ∀ m ∈ (run fsStep (fileFs [] []) es).trail, CrashOk ⟨(fileFs [] []).geom, m⟩ := by
  have hc : (fileFs [] []).volume.Consistent := volume_fileFs ▸ consistent_fileVolume
  have hrun : Along fsStep FreesNothing (fileFs [] [])
      [.truncate 2 1024 9, .write 2 [0x41] 2000 10] :=
    ⟨.inr (.inr (.inr (by decide +kernel))), trivial, trivial⟩
  exact ⟨hc, hrun, by decide +kernel, crashOk_of_run hc rfl hrun⟩

/-- A file is truncated to nothing: after the first write its block is free, and the
inode still refers to it. -/
theorem crash_truncate_unmarked :
    (fileFs [] []).volume.Consistent ∧
      ∃ m ∈ ((fileFs [] []).fsStep (.truncate 2 0 9)).trail,
        ¬ CrashOk ⟨(fileFs [] []).geom, m⟩ := by
  refine ⟨volume_fileFs ▸ consistent_fileVolume, ?_⟩
  have hany : (((fileFs [] []).fsStep (.truncate 2 0 9)).trail.any fun m =>
      decide ((⟨(small [] []).geom, m⟩ : Volume).IsFile 2 ∧
        (⟨(small [] []).geom, m⟩ : Volume).blockAt ((⟨(small [] []).geom, m⟩ : Volume).inodeAt 2)
          ⟨0, []⟩ = 6) && !(⟨(small [] []).geom, m⟩ : Volume).blockBit 6) = true := by
    decide +kernel
  obtain ⟨m, hm, hbad⟩ := any_eq_true.1 hany
  obtain ⟨href, hclear⟩ := Bool.and_eq_true_iff.1 hbad
  refine ⟨m, hm, fun hok => ?_⟩
  rw [geom_fileFs] at hok
  have hset := (hok.marked 2 ⟨0, []⟩ 6 (refers_six (of_decide_eq_true href))).2
  rw [hset] at hclear
  cases hclear

end UnixOs.Ext2
