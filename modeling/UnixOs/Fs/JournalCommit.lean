import UnixOs.Fs.JournalReplay
import Mathlib.Data.List.Sublists

/-!
# One commit

The argument follows the phases of `journal_commit` on a device that may lose
any subset of the writes since the last completed flush:

* *quiet*: outside the journal the medium holds the committed image `B`, a
  replay would leave `B`, and only journal blocks are pending. This holds
  between transactions, and it holds while the data blocks and the pending
  header are written.
* *logged*: the first flush has put the data and a pending header on the
  medium.
* *committing*: the committed header is pending.
* *committed*: the second flush has put the committed header on the medium,
  and only target blocks are pending.

The clearing of the header at the end is not flushed, so the medium of a quiet
disk may still hold the committed header of the last transaction.
-/

namespace UnixOs

open List

open BlockDevice Bytes JournalGeometry

/-! ## Transactions as writes -/

/-- The target writes of a transaction. -/
def txnWrites (g : JournalGeometry) (bs : List LogBlock) : List (Write UInt8) :=
  bs.map fun b => g.targetWrite b.target b.data.bytes

/-- The image after a transaction. -/
def applyTxn (g : JournalGeometry) (B : Image UInt8) (bs : List LogBlock) :
    Image UInt8 :=
  B.storeAll (txnWrites g bs)

/-- The image after some transactions, first to last. -/
def applyTxns (g : JournalGeometry) (B : Image UInt8)
    (ts : List (List LogBlock)) : Image UInt8 :=
  ts.foldl (applyTxn g) B

/-- No target of the transaction lies in the journal. -/
def TargetsOutside (g : JournalGeometry) (bs : List LogBlock) : Prop :=
  ∀ b ∈ bs, g.Outside (g.targetWrite b.target b.data.bytes)

/-- The data blocks of the slot are those of the transaction. -/
def DataIs (g : JournalGeometry) (bs : List LogBlock) (m : Image UInt8) : Prop :=
  ∀ i (hi : i < bs.length), g.slot m (journalSlotData0 + i) = bs[i].data.bytes

variable {g : JournalGeometry} {j : Journal} {B m : Image UInt8}
  {bs : List LogBlock} {d : Disk UInt8} {ws : List (Write UInt8)}

theorem TargetsOutside.writes (h : TargetsOutside g bs) : ∀ w ∈ txnWrites g bs, g.Outside w := by
  intro w hw
  obtain ⟨b, hb, rfl⟩ := mem_map.1 hw
  exact h b hb

/-- Entry `i` of the header names the target of block `i`. -/
theorem targetBlocks_header {c : UInt32} {i : Fin journalMaxPerTxn}
    (hi : i.val < j.txn.blocks.length) :
    (j.header c).targetBlocks i = j.txn.blocks[i.val].target := by
  show (j.txn.blocks.map LogBlock.target).getD i 0 = _
  rw [getD_eq_getElem _ _ (by simpa using hi), getElem_map]

/-- A committed header over the data of its transaction stands for exactly the
writes of the transaction. -/
theorem redo_committed (hlen : j.txn.blocks.length ≤ journalMaxPerTxn)
    (hhdr : g.slot m journalSlotHdr = (j.header 1).toBlock.bytes)
    (hdata : DataIs g j.txn.blocks m) : redo g m = txnWrites g j.txn.blocks := by
  by_cases hnil : j.txn.blocks = []
  · have hno : ¬ Replayable (g.slot m journalSlotHdr) := by
      rw [hhdr, replayable_committed hlen]
      exact not_not.2 hnil
    rw [redo_of_not_replayable hno, hnil]
    rfl
  · have hrep : Replayable (g.slot m journalSlotHdr) := by
      rw [hhdr]
      exact (replayable_committed hlen).2 hnil
    have hnum := numBlocks_header (c := 1) hlen
    have hof := JournalTxnHeader.ofBlock_toBlock (j.header 1)
    rw [← hhdr] at hof
    rw [redo_of_replayable hrep hof]
    refine ext_getElem ?_ fun i hi hi' => ?_
    · rw [length_map, JournalTxnHeader.indices, hnum, length_take,
        length_finRange, min_eq_left hlen, txnWrites, length_map]
    · have hib : i < j.txn.blocks.length := by simpa [txnWrites] using hi'
      simp only [JournalTxnHeader.indices, getElem_map, getElem_take,
        getElem_finRange, txnWrites, redoWrite]
      rw [targetBlocks_header (by simpa using hib)]
      exact congrArg _ (hdata i hib)

/-- A header that a replay acts on, for the slot. -/
def SealsSlot (g : JournalGeometry) (w : Write UInt8) : Prop :=
  w.off = g.slotOff journalSlotHdr ∧ Replayable w.data

/-! ## Quiet disks -/

/-- A write of one journal block that no replay will act on. -/
def HarmlessSlotWrite (g : JournalGeometry) (w : Write UInt8) : Prop :=
  ∃ i < usedSlots, ∃ b : Block, w = g.slotWrite i b ∧
    (i = journalSlotHdr → ¬ Replayable b.bytes)

/-- The medium holds `B` outside the journal, a replay leaves `B`, and the
pending writes are harmless journal blocks. -/
structure Quiet (g : JournalGeometry) (B : Image UInt8) (d : Disk UInt8) :
    Prop where
  outside : ∀ a, ¬ g.InJournal a → d.durable a = B a
  recovers : Recovers g d.durable B
  pending : ∀ w ∈ d.pending, HarmlessSlotWrite g w

/-- Of the pending writes `ws` have survived: if the medium holds a header
that a replay acts on, then a header write is among them, or no data block
is. -/
def HeaderReached (g : JournalGeometry) (d : Disk UInt8)
    (ws : List (Write UInt8)) : Prop :=
  Replayable (g.slot d.durable journalSlotHdr) →
    (∃ w ∈ ws, w.off = g.slotOff journalSlotHdr) ∨
    ∀ w ∈ ws, ∀ i : Fin journalMaxPerTxn,
      w.off ≠ g.slotOff (journalSlotData0 + i)

section

variable (hws : ∀ w ∈ ws, HarmlessSlotWrite g w)
include hws

theorem slot_storeAll_other {i : Nat} (hi : i < usedSlots) (hoff : ∀ w ∈ ws, w.off ≠ g.slotOff i) :
    g.slot (m.storeAll ws) i = g.slot m i := by
  refine slot_congr fun a ha => Image.storeAll_of_not_covers fun w hw hc => ?_
  obtain ⟨i', hi', b, rfl, -⟩ := hws w hw
  have : i' = i := slot_inj hi' hi (covers_slotWrite.1 hc) ha
  exact hoff _ hw (congrArg g.slotOff this)

/-- The last header write that survives decides, and it is harmless. -/
theorem not_replayable_of_header (h : ∃ w ∈ ws, w.off = g.slotOff journalSlotHdr) :
    ¬ Replayable (g.slot (m.storeAll ws) journalSlotHdr) := by
  induction ws generalizing m with
  | nil => obtain ⟨w, hw, -⟩ := h; exact absurd hw not_mem_nil
  | cons w ws ih =>
    have hws' : ∀ v ∈ ws, HarmlessSlotWrite g v := fun v hv => hws v (.tail w hv)
    by_cases hlater : ∃ v ∈ ws, v.off = g.slotOff journalSlotHdr
    · exact ih hws' hlater
    · -- `w` itself is the last header write.
      have hno : ∀ v ∈ ws, v.off ≠ g.slotOff journalSlotHdr := fun v hv hoff => hlater ⟨v, hv, hoff⟩
      have hw : w.off = g.slotOff journalSlotHdr := by
        obtain ⟨v, hv, hoff⟩ := h
        rcases mem_cons.1 hv with rfl | hv
        · exact hoff
        · exact absurd hoff (hno v hv)
      obtain ⟨i, hi, b, rfl, hb⟩ := hws w mem_cons_self
      have hbase : g.InSlot i (g.slotOff i) := ⟨le_refl _, Nat.lt_add_of_pos_right (by decide)⟩
      have hihdr : i = journalSlotHdr := by
        refine slot_inj hi hdr_lt hbase ?_
        rw [show g.slotOff i = g.slotOff journalSlotHdr from hw]
        exact ⟨le_refl _, Nat.lt_add_of_pos_right (by decide)⟩
      subst hihdr
      rw [Image.storeAll_cons, slot_storeAll_other hws' hdr_lt hno, slot_store_self]
      exact hb rfl

theorem storeAll_harmless_outside {a : Nat} (ha : ¬ g.InJournal a) : m.storeAll ws a = m a := by
  refine Image.storeAll_of_not_covers fun w hw hc => ?_
  obtain ⟨i, hi, b, rfl, -⟩ := hws w hw
  exact ha ⟨i, hi, covers_slotWrite.1 hc⟩

end

namespace Quiet

section

variable (h : Quiet g B d)
include h

theorem issue {w : Write UInt8} (hw : HarmlessSlotWrite g w) : Quiet g B (d.issue w) := by
  refine ⟨h.outside, h.recovers, ?_⟩
  intro v hv
  rcases mem_append.1 hv with hv | hv
  · exact h.pending v hv
  · exact mem_singleton.1 hv ▸ hw

/-- A crash on a quiet disk is recovered from, if the surviving header fits the
surviving data. -/
theorem survives (hws : ws.Sublist d.pending) (hreach : HeaderReached g d ws) :
    Recovers g (d.durable.storeAll ws) B := by
  have hharm : ∀ w ∈ ws, HarmlessSlotWrite g w := fun w hw => h.pending w (hws.subset hw)
  have hout : ∀ a, ¬ g.InJournal a → d.durable.storeAll ws a = B a := by
    intro a ha
    rw [storeAll_harmless_outside hharm ha]
    exact h.outside a ha
  by_cases hhdr : ∃ w ∈ ws, w.off = g.slotOff journalSlotHdr
  · exact .of_not_replayable (not_replayable_of_header hharm hhdr) hout
  · have hnohdr : ∀ w ∈ ws, w.off ≠ g.slotOff journalSlotHdr := fun w hw hoff => hhdr ⟨w, hw, hoff⟩
    have hsame := slot_storeAll_other (m := d.durable) hharm hdr_lt hnohdr
    by_cases hrep : Replayable (g.slot d.durable journalSlotHdr)
    · -- The old header survives, and with it the old data blocks.
      have hnodata := (hreach hrep).resolve_left hhdr
      have hredo : redo g (d.durable.storeAll ws) = redo g d.durable :=
        redo_congr hsame fun i => slot_storeAll_other hharm (data_lt i) fun w hw => hnodata w hw i
      refine ⟨?_, fun a ha => ?_⟩
      · rw [hredo]
        exact h.recovers.outside
      · rw [hredo, ← h.recovers.image a ha]
        exact Image.storeAll_congr (storeAll_harmless_outside hharm ha)
    · rw [← hsame] at hrep
      exact .of_not_replayable hrep hout

/-- A flush with a header write pending ends what the old header stood for. -/
theorem sync (hhdr : ∃ w ∈ d.pending, w.off = g.slotOff journalSlotHdr) :
    Quiet g B d.sync ∧ ¬ Replayable (g.slot d.sync.durable journalSlotHdr) := by
  have hno : ¬ Replayable (g.slot d.view journalSlotHdr) := not_replayable_of_header h.pending hhdr
  have hout : ∀ a, ¬ g.InJournal a → d.view a = B a := fun a ha =>
    (storeAll_harmless_outside h.pending ha).trans (h.outside a ha)
  refine ⟨⟨hout, ?_, fun w hw => absurd hw not_mem_nil⟩, ?_⟩
  · exact .of_not_replayable hno hout
  · exact hno

end

end Quiet

/-! ## The phases of a commit -/

/-- After a crash the replay leaves the image before or after the
transaction. -/
def CrashAtomic (g : JournalGeometry) (B : Image UInt8) (bs : List LogBlock)
    (d : Disk UInt8) : Prop :=
  ∀ ws, ws.Sublist d.pending → HeaderReached g d ws →
    Recovers g (d.durable.storeAll ws) B ∨
      Recovers g (d.durable.storeAll ws) (applyTxn g B bs)

/-- The medium holds the header and the data of the transaction of `j`, and
`B` outside the journal. -/
structure Sealed (j : Journal) (B m : Image UInt8) : Prop where
  outside : ∀ a, ¬ j.geom.InJournal a → m a = B a
  header : j.geom.slot m journalSlotHdr = (j.header 1).toBlock.bytes
  data : DataIs j.geom j.txn.blocks m

/-- The committed header is on the medium and the targets in `done` are
pending. -/
structure Committed (j : Journal) (B : Image UInt8) (done : List LogBlock)
    (d : Disk UInt8) : Prop where
  medium : Sealed j B d.durable
  pending : d.pending = txnWrites j.geom done

/-- What a transaction has to satisfy for the journal to hold it. -/
structure TxnOk (j : Journal) : Prop where
  length_le : j.txn.blocks.length ≤ journalMaxPerTxn
  outside : TargetsOutside j.geom j.txn.blocks

theorem data_slot_lt (h : TxnOk j) {i : Nat} (hi : i < j.txn.blocks.length) :
    journalSlotData0 + i < usedSlots :=
  Nat.add_lt_add_left (hi.trans_le h.length_le) _

/-- Whatever targets have reached a sealed medium, the replay completes them. -/
theorem Sealed.recovers (h : Sealed j B m) (ht : TxnOk j)
    (hws : ws ⊆ txnWrites j.geom j.txn.blocks) :
    Recovers j.geom (m.storeAll ws) (applyTxn j.geom B j.txn.blocks) := by
  have hout : ∀ w ∈ ws, j.geom.Outside w := fun w hw => ht.outside.writes w (hws hw)
  have hredo : redo j.geom (m.storeAll ws) = txnWrites j.geom j.txn.blocks := by
    refine redo_committed ht.length_le ?_ fun i hi => ?_
    · rw [slot_storeAll_outside hout hdr_lt]
      exact h.header
    · rw [slot_storeAll_outside hout (data_slot_lt ht hi)]
      exact h.data i hi
  refine ⟨?_, fun a ha => ?_⟩
  · rw [hredo]
    exact ht.outside.writes
  · rw [hredo, Image.storeAll_storeAll_of_subset hws]
    exact Image.storeAll_congr (h.outside a ha)

theorem Quiet.crashAtomic (h : Quiet g B d) : CrashAtomic g B bs d :=
  fun _ hws hreach => .inl (h.survives hws hreach)

theorem Committed.crashAtomic {done : List LogBlock} (h : Committed j B done d) (ht : TxnOk j)
    (hdone : done ⊆ j.txn.blocks) : CrashAtomic j.geom B j.txn.blocks d := by
  intro ws hws _
  refine .inr (h.medium.recovers ht ?_)
  rw [h.pending] at hws
  exact List.Subset.trans hws.subset (map_subset _ hdone)

/-- The last flush makes the disk quiet again, with the transaction applied. -/
theorem Committed.sync (h : Committed j B j.txn.blocks d) (ht : TxnOk j) :
    Quiet j.geom (applyTxn j.geom B j.txn.blocks) d.sync := by
  have hview : d.view = d.durable.storeAll (txnWrites j.geom j.txn.blocks) := by
    rw [Disk.view, h.pending]
  refine ⟨fun a ha => ?_, ?_, fun w hw => absurd hw not_mem_nil⟩
  · rw [Disk.durable_sync, hview]
    exact Image.storeAll_congr (h.medium.outside a ha)
  · rw [Disk.durable_sync, hview]
    exact h.medium.recovers ht (List.Subset.refl _)

/-! ## The commit, request by request -/

/-- The first `k` data blocks of the transaction have been handed to a quiet
disk. -/
structure Logging (j : Journal) (B : Image UInt8) (k : Nat) (d : Disk UInt8) :
    Prop where
  quiet : Quiet j.geom B d
  data : ∀ i (hi : i < j.txn.blocks.length), i < k →
    j.geom.slot d.view (journalSlotData0 + i) = j.txn.blocks[i].data.bytes

theorem harmless_data (ht : TxnOk j) {i : Nat} (hi : i < j.txn.blocks.length) (b : Block) :
    HarmlessSlotWrite j.geom (j.geom.slotWrite (journalSlotData0 + i) b) := by
  refine ⟨_, data_slot_lt ht hi, b, rfl, fun h => ?_⟩
  simp only [journalSlotData0, journalSlotHdr] at h
  omega

theorem Logging.issue {k : Nat} (h : Logging j B k d) (ht : TxnOk j)
    (hk : k < j.txn.blocks.length) :
    Logging j B (k + 1) (d.issue
      (j.geom.slotWrite (journalSlotData0 + k) j.txn.blocks[k].data)) := by
  refine ⟨h.quiet.issue (harmless_data ht hk _), fun i hi hik => ?_⟩
  rw [Disk.view_issue]
  rcases Nat.lt_succ_iff_lt_or_eq.1 hik with hlt | rfl
  · rw [slot_store_other (data_slot_lt ht hk) (data_slot_lt ht hi) (by omega)]
    exact h.data i hi hlt
  · exact slot_store_self

/-- The blocks go to their slots; a crash in between is atomic. -/
theorem writeData_triple (ht : TxnOk j) {k : Nat} {bs : List LogBlock}
    (hbs : j.txn.blocks.drop k = bs) :
    Triple (SealsSlot j.geom) (Logging j B k) (writeData j.geom k bs)
      (fun rc d => Quiet j.geom B d ∧ (0 ≤ rc → Logging j B j.txn.blocks.length d))
      (CrashAtomic j.geom B j.txn.blocks) := by
  induction bs generalizing k with
  | nil =>
    refine .ret fun d h => ⟨h.quiet, fun _ => ⟨h.quiet, fun i hi _ => ?_⟩⟩
    have : j.txn.blocks.length ≤ k := drop_eq_nil_iff.1 hbs
    exact h.data i hi (hi.trans_le this)
  | cons b bs ih =>
    have hk : k < j.txn.blocks.length := by
      by_contra hge
      rw [drop_eq_nil_of_le (not_lt.1 hge)] at hbs
      exact absurd hbs (cons_ne_nil b bs).symm
    rw [drop_eq_getElem_cons hk] at hbs
    obtain ⟨rfl, hrest⟩ := List.cons.inj hbs
    refine .bind (Q := fun rc d => Quiet j.geom B d ∧
      (0 ≤ rc → Logging j B (k + 1) d)) ?_ fun rc => ?_
    · refine .write (fun d h => h.quiet.crashAtomic) (fun d rc h _ => ?_)
        (fun d rc h hrc => ⟨h.quiet, fun hpos => absurd hrc (not_lt.2 hpos)⟩) fun d rc h hrc _ => ?_
      · have hnext := h.issue ht hk
        exact ⟨hnext.quiet, fun _ => hnext⟩
      · exact ⟨h.quiet.issue (harmless_data ht hk _), fun hpos => absurd hrc (not_lt.2 hpos)⟩
    · refine .ite (fun hrc => .ret fun d h => ?_) fun hrc => ?_
      · exact ⟨h.1, fun hpos => absurd hrc (not_lt.2 hpos)⟩
      · exact (ih hrest).pre fun d h => h.2 (not_lt.1 hrc)

/-- The targets are written behind a header that is on the medium. -/
theorem applyTargets_triple (ht : TxnOk j) {done bs : List LogBlock}
    (hbs : done ++ bs = j.txn.blocks) :
    Triple (SealsSlot j.geom) (Committed j B done) (applyTargets j.geom bs)
      (fun _ => Committed j B j.txn.blocks) (CrashAtomic j.geom B j.txn.blocks) := by
  induction bs generalizing done with
  | nil =>
    rw [append_nil] at hbs
    subst hbs
    exact .ret fun _ h => h
  | cons b bs ih =>
    have hdone : done ⊆ j.txn.blocks := fun x hx => hbs ▸ mem_append_left _ hx
    have hnext : (done ++ [b]) ++ bs = j.txn.blocks := by rw [append_assoc]; exact hbs
    have hdone' : done ++ [b] ⊆ j.txn.blocks := fun x hx => hnext ▸ mem_append_left _ hx
    have hissue : ∀ d, Committed j B done d → Committed j B (done ++ [b])
        (d.issue (j.geom.targetWrite b.target b.data.bytes)) := by
      intro d h
      refine ⟨h.medium, ?_⟩
      show d.pending ++ _ = _
      rw [h.pending, txnWrites, txnWrites, map_append]
      rfl
    refine .bind (Q := fun rc d => (0 ≤ rc → Committed j B (done ++ [b]) d) ∧
      (rc < 0 → CrashAtomic j.geom B j.txn.blocks d)) ?_ fun rc => ?_
    · refine .write (fun d h => h.crashAtomic ht hdone)
        (fun d rc h hrc => ⟨fun _ => hissue d h, fun hneg => absurd hrc (not_le.2 hneg)⟩)
        (fun d rc h hrc => ⟨fun hpos => absurd hrc (not_lt.2 hpos), fun _ => ?_⟩)
        fun d rc h hrc _ => ⟨fun hpos => absurd hrc (not_lt.2 hpos), fun _ => ?_⟩
      · exact h.crashAtomic ht hdone
      · exact (hissue d h).crashAtomic ht hdone'
    · refine .ite (fun hrc => .stop fun d h => h.2 hrc) fun hrc => ?_
      exact (ih hnext).pre fun d h => h.1 (not_lt.1 hrc)

theorem harmless_superblock (sb : JournalSuperblock) :
    HarmlessSlotWrite g (g.slotWrite 0 sb.toBlock) :=
  ⟨0, by decide, _, rfl, fun h => absurd h (by decide)⟩

theorem harmless_zeroHeader : HarmlessSlotWrite g (g.slotWrite journalSlotHdr zeroBlock) :=
  ⟨_, hdr_lt, _, rfl, fun _ => not_replayable_zeroBlock⟩

/-- What `journal_commit` leaves when it returns `r`. -/
structure CommitPost (j : Journal) (B : Image UInt8) (r : Int × Journal)
    (d : Disk UInt8) : Prop where
  geom : r.2.geom = j.geom
  initialized : r.2.initialized = j.initialized
  txn : TxnOk r.2
  applied : r.1 = 0 → Quiet j.geom (applyTxn j.geom B j.txn.blocks) d
  failed : r.1 ≠ 0 → Quiet j.geom B d

theorem txnOk_abort (j : Journal) : TxnOk j.abort :=
  ⟨Nat.zero_le _, fun _ hb => absurd hb not_mem_nil⟩

theorem commitPost_abort {rc : Int} (hrc : rc < 0) (h : Quiet j.geom B d) :
    CommitPost j B (rc, j.abort) d :=
  ⟨rfl, rfl, txnOk_abort j, fun h0 => absurd h0 (by omega), fun _ => h⟩

theorem advanceTxnId_eq (j : Journal) : ∃ sb, j.advanceTxnId = { j with sb := sb } := by
  unfold Journal.advanceTxnId
  split
  · exact ⟨_, rfl⟩
  · exact ⟨j.sb, rfl⟩

/-- The part of the commit behind the header. -/
theorem commitApply_triple (ht : TxnOk j) :
    Triple (SealsSlot j.geom) (Committed j B []) (commitApply j) (CommitPost j B)
      (CrashAtomic j.geom B j.txn.blocks) := by
  have hquiet : ∀ d, Quiet j.geom (applyTxn j.geom B j.txn.blocks) d →
      CrashAtomic j.geom B j.txn.blocks d := fun d h ws hws hreach =>
    .inr (h.survives hws hreach)
  obtain ⟨sb, hsb⟩ := advanceTxnId_eq j
  refine .bind (applyTargets_triple ht (nil_append _)) fun _ => ?_
  refine .bind (Q := fun _ =>
    Quiet j.geom (applyTxn j.geom B j.txn.blocks)) (.flush
      (fun d h => h.crashAtomic ht (List.Subset.refl _))
      fun d h => h.sync ht) fun _ => ?_
  -- From here on the disk is quiet, and only harmless blocks are written.
  refine .bind (.write hquiet (fun d rc h _ => h.issue harmless_zeroHeader)
    (fun d rc h _ => h) fun d rc h _ _ => h.issue harmless_zeroHeader) fun _ => ?_
  rw [hsb]
  refine .bind (.write hquiet (fun d rc h _ => h.issue (harmless_superblock sb))
    (fun d rc h _ => h) fun d rc h _ _ => h.issue (harmless_superblock sb)) fun _ => ?_
  exact .ret fun d h => ⟨rfl, rfl, txnOk_abort _, fun _ => h, absurd rfl⟩

/-- The first flush has put the data on the medium, and no replay would act on
the header there. -/
structure Logged (j : Journal) (B : Image UInt8) (d : Disk UInt8) : Prop where
  quiet : Quiet j.geom B d
  data : DataIs j.geom j.txn.blocks d.durable
  pending : d.pending = []

/-- The pending header has been handed to the disk. -/
structure HeaderIssued (j : Journal) (B : Image UInt8) (d : Disk UInt8) :
    Prop where
  logging : Logging j B j.txn.blocks.length d
  header : ∃ w ∈ d.pending, w.off = j.geom.slotOff journalSlotHdr

theorem slot_header_other (ht : TxnOk j) {i : Nat} (hi : i < j.txn.blocks.length) {b : Block} :
    j.geom.slot (m.store (j.geom.slotWrite journalSlotHdr b))
      (journalSlotData0 + i) = j.geom.slot m (journalSlotData0 + i) := by
  refine slot_store_other hdr_lt (data_slot_lt ht hi) ?_
  simp only [journalSlotData0, journalSlotHdr]
  omega

theorem Logging.issueHeader (h : Logging j B j.txn.blocks.length d) (ht : TxnOk j) :
    HeaderIssued j B (d.issue (j.geom.slotWrite journalSlotHdr (j.header 0).toBlock)) := by
  refine ⟨⟨h.quiet.issue ?_, fun i hi hik => ?_⟩,
    j.geom.slotWrite journalSlotHdr (j.header 0).toBlock, ?_, rfl⟩
  · exact ⟨_, hdr_lt, _, rfl, fun _ => not_replayable_pending j⟩
  · rw [Disk.view_issue, slot_header_other ht hi]
    exact h.data i hi hik
  · exact mem_append_right _ (mem_singleton.2 rfl)

theorem HeaderIssued.sync (h : HeaderIssued j B d) : Logged j B d.sync :=
  ⟨(h.logging.quiet.sync h.header).1, fun i hi => h.logging.data i hi hi, rfl⟩

/-- The committed header is pending over a logged medium. -/
structure Committing (j : Journal) (B : Image UInt8) (d : Disk UInt8) :
    Prop where
  medium : Logged j B ⟨d.durable, []⟩
  pending : d.pending
    = [j.geom.slotWrite journalSlotHdr (j.header 1).toBlock]

section

variable (h : Committing j B d) (ht : TxnOk j)
include h ht

theorem Committing.sealed :
    Sealed j B (d.durable.store (j.geom.slotWrite journalSlotHdr (j.header 1).toBlock)) := by
  refine ⟨fun a ha => ?_, slot_store_self, fun i hi => ?_⟩
  · rw [Image.store_of_not_covers fun hc => ha ⟨_, hdr_lt, covers_slotWrite.1 hc⟩]
    exact h.medium.quiet.outside a ha
  · rw [slot_header_other ht hi]
    exact h.medium.data i hi

/-- The write of the committed header is the commit: a crash that loses it
leaves the old image, a crash that keeps it the new one. -/
theorem Committing.crashAtomic : CrashAtomic j.geom B j.txn.blocks d := by
  intro ws hws _
  rw [h.pending] at hws
  rcases sublist_singleton.1 hws with rfl | rfl
  · exact .inl h.medium.quiet.recovers
  · exact .inr ((h.sealed ht).recovers ht (nil_subset _))

theorem Committing.sync : Committed j B [] d.sync := by
  refine ⟨?_, rfl⟩
  have hsealed := h.sealed ht
  rw [Disk.durable_sync, Disk.view, h.pending]
  exact hsealed

end

/-- **One commit.** Started on a quiet disk it leaves a quiet disk, with the
transaction applied exactly if it returns 0; where the machine stops inside it
the transaction is recovered as a whole or not at all. -/
theorem journalCommit_triple (ht : TxnOk j) :
    Triple (SealsSlot j.geom) (Quiet j.geom B) (journalCommit j) (CommitPost j B)
      (CrashAtomic j.geom B j.txn.blocks) := by
  have hinval : ∀ d, Quiet j.geom B d →
      CommitPost j B (-Errno.EINVAL, j) d := fun d h =>
    ⟨rfl, rfl, ht, fun h0 => absurd h0 (by decide : -Errno.EINVAL ≠ 0), fun _ => h⟩
  refine .ite (fun _ => .ret hinval) fun _ => ?_
  refine .ite (fun _ => .ret hinval) fun _ => ?_
  refine .bind ((writeData_triple ht (drop_zero)).pre fun d h =>
    ⟨h, fun i _ hi => absurd hi (Nat.not_lt_zero i)⟩) fun rc => ?_
  refine .ite (fun hrc => .ret fun d h => commitPost_abort hrc h.1) fun hrc => ?_
  -- The pending header.
  refine .bind (Q := fun rc d => Quiet j.geom B d ∧
    (0 ≤ rc → HeaderIssued j B d)) (.write (fun d h => h.1.crashAtomic)
      (fun d rc' h _ => ?_) (fun d rc' h hneg =>
        ⟨h.1, fun hpos => absurd hneg (not_lt.2 hpos)⟩) fun d rc' h hneg _ => ?_) fun rc => ?_
  · have hnext := (h.2 (not_lt.1 hrc)).issueHeader ht
    exact ⟨hnext.logging.quiet, fun _ => hnext⟩
  · exact ⟨h.1.issue ⟨_, hdr_lt, _, rfl, fun _ => not_replayable_pending j⟩,
      fun hpos => absurd hneg (not_lt.2 hpos)⟩
  refine .ite (fun hrc => .ret fun d h => commitPost_abort hrc h.1) fun hrc => ?_
  refine .bind (Q := fun _ => Logged j B) (.flush
    (fun d h => h.1.crashAtomic)
    fun d h => (h.2 (not_lt.1 hrc)).sync) fun _ => ?_
  -- The committed header. Late it would stay behind a commit that has failed, unless the
  -- transaction is empty and no replay acts on it.
  refine .bind (Q := fun rc d => (rc < 0 → Quiet j.geom B d) ∧
    (0 ≤ rc → Committing j B d)) (.write (fun d h => h.quiet.crashAtomic)
      (fun d rc' h hpos => ⟨fun hneg => absurd hpos (not_le.2 hneg), fun _ => ?_⟩)
      (fun d rc' h hneg => ⟨fun _ => h.quiet, fun hpos => absurd hneg (not_lt.2 hpos)⟩)
      fun d rc' h hneg hseals => ⟨fun _ => ?_, fun hpos => absurd hneg (not_lt.2 hpos)⟩)
    fun rc => ?_
  · obtain ⟨durable, pending⟩ := d
    obtain rfl : pending = [] := h.pending
    exact ⟨h, rfl⟩
  · exact h.quiet.issue ⟨_, hdr_lt, _, rfl, fun _ hrep => hseals ⟨rfl, hrep⟩⟩
  refine .ite (fun hrc => .ret fun d h => commitPost_abort hrc (h.1 hrc)) fun hrc => ?_
  have hpos := not_lt.1 hrc
  refine .bind (.flush
    (fun d h => (h.2 hpos).crashAtomic ht) fun d h => (h.2 hpos).sync ht)
    fun _ => commitApply_triple ht

end UnixOs
