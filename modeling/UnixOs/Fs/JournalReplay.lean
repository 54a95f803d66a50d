import UnixOs.Fs.Journal

/-!
# What a replay does

`journal_replay` reads the header of the slot and redoes the transaction it
describes. Here its effect is said in one line: the image is overwritten with
`redo m`, the writes the slot of `m` stands for. `Recovers g m B` says that a
replay of `m` leaves `B` outside the journal.
-/

namespace UnixOs

open List JournalTxnHeader

open BlockDevice Bytes

namespace JournalGeometry

variable {g : JournalGeometry} {m : Image UInt8}

/-! ## Slots -/

/-- The blocks of the journal that are ever used: superblock, header, data. -/
def usedSlots : Nat := journalSlotData0 + journalMaxPerTxn

/-- The bytes of journal block `i`. -/
def InSlot (g : JournalGeometry) (i a : Nat) : Prop :=
  g.slotOff i ≤ a ∧ a < g.slotOff i + journalBlockSize

/-- The bytes of the journal. -/
def InJournal (g : JournalGeometry) (a : Nat) : Prop :=
  ∃ i < usedSlots, g.InSlot i a

/-- The slots do not overlap. -/
theorem slot_inj {i i' a : Nat} (hi : i < usedSlots) (hi' : i' < usedSlots)
    (h : g.InSlot i a) (h' : g.InSlot i' a) : i = i' := by
  have hblock : ∀ {n : Nat}, g.InSlot n a →
      a / journalBlockSize = (g.start + UInt32.ofNat n).toNat := fun hn =>
    Nat.div_eq_of_lt_le hn.1 (by
      have := hn.2
      simp only [slotOff, journalBlockSize] at this ⊢
      omega)
  have hsum : g.start + UInt32.ofNat i = g.start + UInt32.ofNat i' :=
    UInt32.toNat_inj.1 ((hblock h).symm.trans (hblock h'))
  have hnum : UInt32.ofNat i = UInt32.ofNat i' := by
    have := congrArg (fun x => x - g.start) hsum
    simpa [UInt32.add_sub_cancel, UInt32.add_comm g.start] using this
  have hsmall : ∀ {n : Nat}, n < usedSlots → (UInt32.ofNat n).toNat = n := by
    intro n hn
    simp only [usedSlots, journalSlotData0, journalSlotHdr, journalMaxPerTxn] at hn
    rw [UInt32.toNat_ofNat']
    omega
  rw [← hsmall hi, ← hsmall hi', hnum]

theorem covers_slotWrite {i a : Nat} {b : Block} : (g.slotWrite i b).Covers a ↔ g.InSlot i a := by
  simp only [Write.Covers, slotWrite, InSlot, b.length_eq]

/-- The content of journal block `i`. -/
def slot (g : JournalGeometry) (m : Image UInt8) (i : Nat) : List UInt8 :=
  m.load (g.slotOff i) journalBlockSize

theorem slot_congr {m m' : Image UInt8} {i : Nat}
    (h : ∀ a, g.InSlot i a → m a = m' a) : g.slot m i = g.slot m' i :=
  Image.load_congr fun _ ho => h _ ⟨Nat.le_add_right _ _, Nat.add_lt_add_left ho _⟩

theorem slot_store_self {i : Nat} {b : Block} : g.slot (m.store (g.slotWrite i b)) i = b.bytes :=
  Image.load_store_self b.length_eq

theorem slot_store_other {i i' : Nat} {b : Block}
    (hi : i < usedSlots) (hi' : i' < usedSlots) (hne : i ≠ i') :
    g.slot (m.store (g.slotWrite i b)) i' = g.slot m i' :=
  slot_congr fun _ ha => Image.store_of_not_covers fun hc =>
    hne (slot_inj hi hi' (covers_slotWrite.1 hc) ha)

/-- A write that leaves the journal alone. -/
def Outside (g : JournalGeometry) (w : Write UInt8) : Prop :=
  ∀ a, w.Covers a → ¬ g.InJournal a

theorem slot_store_outside {w : Write UInt8} (h : g.Outside w) {i : Nat} (hi : i < usedSlots) :
    g.slot (m.store w) i = g.slot m i :=
  slot_congr fun a ha => Image.store_of_not_covers fun hc => h a hc ⟨i, hi, ha⟩

theorem slot_storeAll_outside {ws : List (Write UInt8)}
    (h : ∀ w ∈ ws, g.Outside w) {i : Nat} (hi : i < usedSlots) :
    g.slot (m.storeAll ws) i = g.slot m i :=
  slot_congr fun a ha => Image.storeAll_of_not_covers fun w hw hc => h w hw a hc ⟨i, hi, ha⟩

end JournalGeometry

open JournalGeometry

variable {g : JournalGeometry} {m : Image UInt8}

/-! ## The header test -/

/-- The test `journal_replay` makes before it redoes the slot. -/
def Replayable (bytes : List UInt8) : Prop :=
  let hdr := ofBlock bytes
  (hdr.magic = journalMagic ∧ hdr.committed = 1) ∧
    journalCrc { hdr with crc := 0 } = hdr.crc ∧
    hdr.numBlocks ≠ 0 ∧ hdr.numBlocks.toNat ≤ journalMaxPerTxn

instance (bytes : List UInt8) : Decidable (Replayable bytes) :=
  inferInstanceAs (Decidable ((_ ∧ _) ∧ _ ∧ _ ∧ _))

theorem not_replayable_zeroBlock : ¬ Replayable zeroBlock.bytes := by
  intro h
  have hmagic : wordAt zeroBlock.bytes 0 = journalMagic := h.1.1
  exact absurd hmagic (by decide)

theorem not_replayable_pending (j : Journal) : ¬ Replayable (j.header 0).toBlock.bytes := by
  intro h
  have hcom := h.1.2
  rw [ofBlock_toBlock] at hcom
  exact absurd hcom (by decide : (0 : UInt32) ≠ 1)

theorem numBlocks_header {j : Journal} {c : UInt32}
    (hlen : j.txn.blocks.length ≤ journalMaxPerTxn) :
    (j.header c).numBlocks.toNat = j.txn.blocks.length := by
  show (UInt32.ofNat j.txn.blocks.length).toNat = _
  rw [UInt32.toNat_ofNat']
  simp only [journalMaxPerTxn] at hlen
  omega

/-- A committed header passes the test, unless the transaction is empty. -/
theorem replayable_committed {j : Journal} (hlen : j.txn.blocks.length ≤ journalMaxPerTxn) :
    Replayable (j.header 1).toBlock.bytes ↔ j.txn.blocks ≠ [] := by
  rw [Replayable, ofBlock_toBlock]
  have hnum := numBlocks_header (c := 1) hlen
  constructor
  · rintro ⟨-, -, hne, -⟩ hnil
    refine hne (UInt32.toNat_inj.1 ?_)
    rw [hnum, hnil]; rfl
  · intro hne
    refine ⟨⟨rfl, rfl⟩, rfl, fun hzero => hne ?_, hnum ▸ hlen⟩
    have : j.txn.blocks.length = 0 := by rw [← hnum, hzero]; rfl
    exact eq_nil_of_length_eq_zero this

/-! ## Redo -/

/-- The write `journal_replay` makes for entry `i` of the header. -/
def redoWrite (g : JournalGeometry) (hdr : JournalTxnHeader) (m : Image UInt8)
    (i : Fin journalMaxPerTxn) : Write UInt8 :=
  g.targetWrite (hdr.targetBlocks i) (g.slot m (journalSlotData0 + i))

/-- The writes the slot of `m` stands for. -/
def redo (g : JournalGeometry) (m : Image UInt8) : List (Write UInt8) :=
  let bytes := g.slot m journalSlotHdr
  if Replayable bytes then
    let hdr := ofBlock bytes
    hdr.indices.map (redoWrite g hdr m)
  else []

theorem data_lt (i : Fin journalMaxPerTxn) : journalSlotData0 + i.val < usedSlots :=
  Nat.add_lt_add_left i.isLt _

theorem hdr_lt : journalSlotHdr < usedSlots := by decide

/-- What is redone depends on the header and the data blocks only. -/
theorem redo_congr {m m' : Image UInt8} (hhdr : g.slot m journalSlotHdr = g.slot m' journalSlotHdr)
    (hdata : ∀ i : Fin journalMaxPerTxn,
      g.slot m (journalSlotData0 + i) = g.slot m' (journalSlotData0 + i)) :
    redo g m = redo g m' := by
  have hwrite : ∀ hdr, redoWrite g hdr m = redoWrite g hdr m' := by
    intro hdr
    funext i
    rw [redoWrite, redoWrite, hdata]
  simp only [redo, hhdr, hwrite]

theorem redo_of_not_replayable (h : ¬ Replayable (g.slot m journalSlotHdr)) : redo g m = [] := by
  simp only [redo, if_neg h]

theorem redo_of_replayable {hdr : JournalTxnHeader} (h : Replayable (g.slot m journalSlotHdr))
    (hhdr : ofBlock (g.slot m journalSlotHdr) = hdr) :
    redo g m = hdr.indices.map (redoWrite g hdr m) := by
  simp only [redo, if_pos h, hhdr]

/-- A replay of `m` leaves `B` outside the journal. -/
structure Recovers (g : JournalGeometry) (m B : Image UInt8) : Prop where
  outside : ∀ w ∈ redo g m, g.Outside w
  image : ∀ a, ¬ g.InJournal a → m.storeAll (redo g m) a = B a

/-- A slot that is not redone leaves the image as it is. -/
theorem Recovers.of_not_replayable {m B : Image UInt8}
    (hhdr : ¬ Replayable (g.slot m journalSlotHdr))
    (hout : ∀ a, ¬ g.InJournal a → m a = B a) : Recovers g m B := by
  have hredo := redo_of_not_replayable hhdr
  constructor
  · rw [hredo]
    exact fun w hw => absurd hw not_mem_nil
  · rw [hredo]
    exact hout

/-! ## The replay of a healthy device

Eighteen answers are enough: the header, eight data blocks read, eight targets
written, the header cleared. -/

/-- The number of requests of a replay is at most this. -/
def replayRequests : Nat := 2 * journalMaxPerTxn + 2

/-- The machine after a reboot, with a device that answers `n` requests. -/
def rebooted (m : Image UInt8) (n : Nat) : World UInt8 :=
  ⟨⟨m, []⟩, replicate n .done, []⟩

/-- The redo loop writes each target from its data block. The data blocks stay
what they were because no target lies in the journal. -/
theorem replayBlocks_accepted {hdr : JournalTxnHeader} {is : List (Fin journalMaxPerTxn)}
    (hout : ∀ i ∈ is, g.Outside (redoWrite g hdr m i)) {d : Disk UInt8}
    (hslot : ∀ i : Fin journalMaxPerTxn, g.slot d.view (journalSlotData0 + i)
      = g.slot m (journalSlotData0 + i)) (n : Nat) (fs : List Bool) :
    ∃ d' : Disk UInt8,
      replayBlocks g hdr is ⟨d, replicate (2 * is.length + n) .done, fs⟩
        = .ok (0, ⟨d', replicate n .done, fs⟩) ∧
      d'.view = d.view.storeAll (is.map (redoWrite g hdr m)) := by
  induction is generalizing d with
  | nil =>
    refine ⟨d, ?_, rfl⟩
    rw [length_nil, Nat.mul_zero, zero_add]
    rfl
  | cons i is ih =>
    have hi := hout i mem_cons_self
    have hview : (d.issue (redoWrite g hdr m i)).view
        = d.view.store (redoWrite g hdr m i) := d.view_issue _
    obtain ⟨d', hrun, hd'⟩ := ih
      (fun i' hi' => hout i' (.tail i hi'))
      (fun i' => by
        rw [hview, ← hslot i']
        exact slot_store_outside hi (data_lt i'))
    refine ⟨d', ?_, ?_⟩
    · have hlen : 2 * (i :: is).length + n = (2 * is.length + n) + 1 + 1 := by
        rw [length_cons]; omega
      rw [hlen, replicate_succ, replicate_succ]
      have hread : g.targetWrite (hdr.targetBlocks i)
          (d.view.load (g.slotOff (journalSlotData0 + i)) journalBlockSize)
          = redoWrite g hdr m i := by
        rw [redoWrite, ← hslot i]; rfl
      show replayBlocks g hdr is
        ⟨d.issue (g.targetWrite (hdr.targetBlocks i)
          (d.view.load (g.slotOff (journalSlotData0 + i)) journalBlockSize)),
          replicate (2 * is.length + n) .done, fs⟩ = _
      rw [hread]
      exact hrun
    · rw [hd', hview]
      rfl

theorem length_indices_le (hdr : JournalTxnHeader) : hdr.indices.length ≤ journalMaxPerTxn := by
  rw [indices, length_take, length_finRange]
  exact min_le_right _ _

/-- Clearing the header changes nothing outside the journal. -/
theorem store_zeroHeader_outside {a : Nat} (ha : ¬ g.InJournal a) :
    m.store (g.slotWrite journalSlotHdr zeroBlock) a = m a :=
  Image.store_of_not_covers fun hc => ha ⟨journalSlotHdr, hdr_lt, covers_slotWrite.1 hc⟩

/-- A slot that fails the test is left alone or cleared. -/
theorem replaySlot_of_not_replayable {bytes : List UInt8} (h : ¬ Replayable bytes) (n : Nat) :
    ∃ s', replaySlot g (.ofBlock bytes) (rebooted m (n + 1)) = .ok (0, s') ∧
      ∀ a, ¬ g.InJournal a → s'.disk.view a = m a := by
  have hdiscard : ∃ s', discardSlot g (rebooted m (n + 1)) = .ok (0, s') ∧
      ∀ a, ¬ g.InJournal a → s'.disk.view a = m a :=
    ⟨_, rfl, fun _ ha => store_zeroHeader_outside ha⟩
  unfold replaySlot
  split
  · exact ⟨_, rfl, fun _ _ => rfl⟩
  · split
    · exact hdiscard
    · split
      · exact hdiscard
      · next hmagic hcrc hnum =>
        -- All three tests passed, so the header is replayable.
        refine absurd ⟨?_, not_not.1 hcrc, ?_⟩ h
        · exact not_or.1 hmagic |>.imp not_not.1 not_not.1
        · exact not_or.1 hnum |>.imp id not_lt.1

/-- A header that checks writes all targets, and nothing else outside of the journal. -/
theorem replaySlot_of_replayable (h : Replayable (g.slot m journalSlotHdr))
    (hout : ∀ w ∈ redo g m, g.Outside w) :
    ∃ s', replaySlot g (.ofBlock (g.slot m journalSlotHdr)) (rebooted m 17)
        = .ok (0, s') ∧ ∀ a, ¬ g.InJournal a → s'.disk.view a = m.storeAll (redo g m) a := by
  obtain ⟨hmagic, hcrc, hnum⟩ := id h
  rw [redo_of_replayable h rfl] at hout ⊢
  generalize ofBlock (g.slot m journalSlotHdr) = hdr at *
  rw [replaySlot, if_neg (not_or.2 (hmagic.imp not_not.2 not_not.2)),
    if_neg (not_not.2 hcrc), if_neg (not_or.2 (hnum.imp id not_lt.2))]
  -- Two answers for each entry, and one to clear the header.
  have hlen : hdr.indices.length ≤ 8 := length_indices_le hdr
  obtain ⟨n, hn⟩ : ∃ n, 17 = 2 * hdr.indices.length + (n + 1) := by
    exact ⟨16 - 2 * hdr.indices.length, by omega⟩
  obtain ⟨d', hrun, hd'⟩ := replayBlocks_accepted (d := ⟨m, []⟩)
    (fun i hi => hout _ (mem_map_of_mem hi)) (fun _ => rfl) (n + 1) []
  refine ⟨⟨d'.issue (g.slotWrite journalSlotHdr zeroBlock), replicate n .done, []⟩, ?_, ?_⟩
  · rw [← hn] at hrun
    exact (bind_ok hrun).trans rfl
  · intro a ha
    rw [Disk.view_issue, store_zeroHeader_outside ha, hd']
    rfl

/-- **The replay of a healthy device** returns 0 and leaves the image that
`Recovers` names. -/
theorem journalReplay_recovers {j : Journal} {m B : Image UInt8}
    (hinit : j.initialized = true) (h : Recovers j.geom m B) :
    ∃ s', journalReplay j (rebooted m replayRequests) = .ok (0, s') ∧
      ∀ a, ¬ j.geom.InJournal a → s'.disk.view a = B a := by
  -- Every path reads the header first.
  have hblk : blkRead (j.geom.slotOff journalSlotHdr) journalBlockSize
      (rebooted m replayRequests)
      = .ok (.ok (j.geom.slot m journalSlotHdr), rebooted m 17) := rfl
  have hread : journalReplay j (rebooted m replayRequests)
      = replaySlot j.geom (.ofBlock (j.geom.slot m journalSlotHdr)) (rebooted m 17) := by
    simp only [journalReplay, hinit, Bool.not_true, Bool.false_eq_true, if_false]
    refine (bind_ok hblk).trans ?_
    rfl
  rw [hread]
  by_cases hrep : Replayable (j.geom.slot m journalSlotHdr)
  · obtain ⟨s', hrun, hview⟩ := replaySlot_of_replayable hrep h.outside
    exact ⟨s', hrun, fun a ha => (hview a ha).trans (h.image a ha)⟩
  · obtain ⟨s', hrun, hview⟩ := replaySlot_of_not_replayable hrep 16
    refine ⟨s', hrun, fun a ha => (hview a ha).trans ?_⟩
    have himage := h.image a ha
    rwa [redo_of_not_replayable hrep] at himage

end UnixOs
