import UnixOs.Fs.JournalCommit

/-!
# Crash atomicity of the journal

Transactions are committed one after the other. The next transaction
overwrites the data blocks while the medium may still hold the committed
header of the last one, so a crash that keeps its data and loses both header
writes replays the old header over the new data. `HeaderReached` excludes
these crashes; every other crash leaves a prefix of the transactions.
-/

namespace UnixOs

open List

open BlockDevice Bytes JournalGeometry

variable {g : JournalGeometry} {j : Journal} {d : Disk UInt8}

/-! ## Sequences of transactions -/

/-- The calls a file system makes. -/
inductive JournalOp where
  | begin
  | logBlock (target : UInt32) (data : Block) (bufOk : Bool)
  | commit
  | abort

/-- The journal with the transactions whose commit has returned 0. -/
structure Session where
  journal : Journal
  acked : List (List LogBlock) := []

/-- One call. -/
def sessionStep (s : Session) : JournalOp → DevM UInt8 Session
  | .begin => pure { s with journal := s.journal.begin }
  | .logBlock target data bufOk =>
    pure { s with journal := (s.journal.logBlock target data bufOk).2 }
  | .abort => pure { s with journal := s.journal.abort }
  | .commit => do
    let r ← journalCommit s.journal
    pure ⟨r.2, if r.1 = 0 then s.acked ++ [s.journal.txn.blocks] else s.acked⟩

/-- A sequence of calls. -/
def sessionRun (s : Session) (ops : List JournalOp) : DevM UInt8 Session :=
  ops.foldlM sessionStep s

/-- The call logs no block of the journal. -/
def JournalOp.Outside (g : JournalGeometry) : JournalOp → Prop
  | .logBlock target data _ => g.Outside (g.targetWrite target data.bytes)
  | _ => True

/-- The medium holds everything, and no replay would act on its header. -/
structure CleanDisk (g : JournalGeometry) (d : Disk UInt8) : Prop where
  pending : d.pending = []
  header : ¬ Replayable (g.slot d.durable journalSlotHdr)

theorem CleanDisk.quiet (h : CleanDisk g d) : Quiet g d.durable d :=
  ⟨fun _ _ => rfl, .of_not_replayable h.header fun _ _ => rfl, by
    rw [h.pending]; exact fun w hw => absurd hw not_mem_nil⟩

/-- The invariant of a session: the disk is quiet at the image of the
acknowledged transactions. -/
structure SessionInv (g : JournalGeometry) (base : Image UInt8) (s : Session)
    (d : Disk UInt8) : Prop where
  geom : s.journal.geom = g
  initialized : s.journal.initialized = true
  txn : TxnOk s.journal
  quiet : Quiet g (applyTxns g base s.acked) d

theorem txnOk_begin (h : TxnOk j) : TxnOk j.begin := by
  unfold Journal.begin
  split
  · exact h
  · exact ⟨Nat.zero_le _, fun _ hb => absurd hb not_mem_nil⟩

theorem begin_same (j : Journal) : j.begin.geom = j.geom ∧ j.begin.initialized = j.initialized := by
  unfold Journal.begin
  split <;> exact ⟨rfl, rfl⟩

/-- Logging a block that is outside of the journal. -/
theorem txnOk_logBlock (h : TxnOk j) {target : UInt32} {data : Block} {bufOk : Bool}
    (hout : j.geom.Outside (j.geom.targetWrite target data.bytes)) :
    TxnOk (j.logBlock target data bufOk).2 := by
  unfold Journal.logBlock
  split
  · exact h
  · next hlen =>
    split
    · exact h
    · refine ⟨?_, fun b hb => ?_⟩
      · rw [length_append]
        exact not_le.1 hlen
      · rcases mem_append.1 hb with hb | hb
        · exact h.outside b hb
        · obtain rfl := mem_singleton.1 hb
          exact hout

theorem logBlock_same (j : Journal) (target : UInt32) (data : Block) (bufOk : Bool) :
    (j.logBlock target data bufOk).2.geom = j.geom ∧
      (j.logBlock target data bufOk).2.initialized = j.initialized := by
  unfold Journal.logBlock
  split
  · exact ⟨rfl, rfl⟩
  · split <;> exact ⟨rfl, rfl⟩

/-- Every call keeps the invariant. -/
theorem sessionStep_triple {base : Image UInt8} (s : Session) {op : JournalOp}
    (hop : op.Outside g) :
    Triple (SealsSlot g) (SessionInv g base s) (sessionStep s op) (SessionInv g base)
      fun _ => True := by
  cases op with
  | begin =>
    refine .ret fun d h => ?_
    obtain ⟨hgeom, hinit⟩ := begin_same s.journal
    exact ⟨hgeom.trans h.geom, hinit.trans h.initialized, txnOk_begin h.txn, h.quiet⟩
  | logBlock target data bufOk =>
    refine .ret fun d h => ?_
    obtain ⟨hgeom, hinit⟩ := logBlock_same s.journal target data bufOk
    have hout : s.journal.geom.Outside
        (s.journal.geom.targetWrite target data.bytes) := by
      rw [h.geom]; exact hop
    exact ⟨hgeom.trans h.geom, hinit.trans h.initialized, txnOk_logBlock h.txn hout, h.quiet⟩
  | abort => exact .ret fun d h => ⟨h.geom, h.initialized, txnOk_abort _, h.quiet⟩
  | commit =>
    refine .assuming (H := s.journal.geom = g ∧
        s.journal.initialized = true ∧ TxnOk s.journal)
      (fun d h => ⟨h.geom, h.initialized, h.txn⟩) ?_
    rintro ⟨rfl, hinit, htxn⟩
    have hcommit := journalCommit_triple (B := applyTxns s.journal.geom base s.acked) htxn
    refine .bind ((hcommit.pre fun d h => h.quiet).crash fun _ _ => trivial)
      fun r => .ret fun d h => ?_
    refine ⟨h.geom, h.initialized.trans hinit, h.txn, ?_⟩
    by_cases hrc : r.1 = 0
    · simp only [hrc, if_true, applyTxns, foldl_append]
      exact h.applied hrc
    · simp only [hrc, if_false]
      exact h.failed hrc

/-- The power fails inside the commit of the current transaction, or before
it. -/
def CrashesAt (j : Journal) (w : World UInt8) (d : Disk UInt8) : Prop :=
  journalCommit j w = .error d ∨ d = w.disk

/-- A replay of `m` leaves the acknowledged transactions, or these and the one
in flight. -/
def RecoversPrefix (s : Session) (base m : Image UInt8) : Prop :=
  ∃ r, journalReplay s.journal (rebooted m replayRequests) = .ok (0, r) ∧
    ∃ L, (L = s.acked ∨ L = s.acked ++ [s.journal.txn.blocks]) ∧
      ∀ a, ¬ s.journal.geom.InJournal a →
        r.disk.view a = applyTxns s.journal.geom base L a

/-- **Crash atomicity.** On a device whose flushes complete and which drops the
committed headers that it answers with an error, after any calls on a clean
journal and a crash in the next commit, a replay leaves the image of the
acknowledged transactions, or of these and the one in flight. -/
theorem crash_atomic_of_headerReached {j : Journal} {w w' : World UInt8}
    {ops : List JournalOp} {s : Session} {d : Disk UInt8}
    {ws : List (Write UInt8)} (hinit : j.initialized = true)
    (hidle : j.txn.blocks = []) (hclean : CleanDisk j.geom w.disk)
    (hreliable : w.Reliable (SealsSlot j.geom))
    (hops : ∀ op ∈ ops, op.Outside j.geom) (hrun : sessionRun ⟨j, []⟩ ops w = .ok (s, w'))
    (hcrash : CrashesAt s.journal w' d) (hws : ws.Sublist d.pending)
    (hreach : HeaderReached j.geom d ws) :
    RecoversPrefix s w.disk.durable (d.durable.storeAll ws) := by
  have hinv : SessionInv j.geom w.disk.durable ⟨j, []⟩ w.disk := by
    refine ⟨rfl, hinit, ⟨?_, ?_⟩, hclean.quiet⟩
    · rw [hidle]; exact Nat.zero_le _
    · rw [hidle]; exact fun _ hb => absurd hb not_mem_nil
  obtain ⟨hfl', hinv'⟩ := (Triple.foldlM
    (fun s op hop => sessionStep_triple s (hops op hop)) _).ok hreliable hinv hrun
  -- The crash leaves the image before or after the commit in flight.
  have hatomic : CrashAtomic j.geom (applyTxns j.geom w.disk.durable s.acked)
      s.journal.txn.blocks d := by
    rcases hcrash with hcommit | rfl
    · have htriple := journalCommit_triple (B := applyTxns j.geom w.disk.durable s.acked) hinv'.txn
      rw [hinv'.geom] at htriple
      exact htriple.error hfl' hinv'.quiet hcommit
    · exact hinv'.quiet.crashAtomic
  rw [← hinv'.geom] at hatomic hreach
  rcases hatomic ws hws hreach with hB | hB
  · obtain ⟨r, hr, hview⟩ := journalReplay_recovers hinv'.initialized hB
    exact ⟨r, hr, _, .inl rfl, hview⟩
  · obtain ⟨r, hr, hview⟩ := journalReplay_recovers hinv'.initialized hB
    refine ⟨r, hr, _, .inr rfl, fun a ha => (hview a ha).trans ?_⟩
    rw [applyTxns, applyTxns, foldl_append]
    rfl

/-! ## Two transactions in one slot -/

/-- A journal at block 100 of a file system with 1 KiB blocks. -/
def demoGeometry : JournalGeometry := ⟨100, 2, by decide, by decide⟩

/-- A block of equal bytes. -/
def fill (x : UInt8) : Block :=
  ⟨replicate journalBlockSize x, length_replicate⟩

/-- The journal after `journal_init` and `journal_replay` on a zero disk. -/
def demoJournal : Journal :=
  ⟨demoGeometry, freshSuperblock 32, true, {}⟩

/-- Block 0 is committed with ones, then block 1 is logged with twos. -/
def twoTxns : List JournalOp :=
  [.begin, .logBlock 0 (fill 1) true, .commit,
    .begin, .logBlock 1 (fill 2) true]

/-- A zero disk that answers the first commit and one data block of the
second. -/
def demoWorld : World UInt8 :=
  ⟨⟨fun _ => 0, []⟩, replicate 7 .done, replicate 3 true⟩

theorem demo_journal_high {a : Nat} (h : demoGeometry.InJournal a) : 409600 ≤ a := by
  obtain ⟨i, hi, hlo, -⟩ := h
  have : ∀ i < usedSlots, 409600 ≤ demoGeometry.slotOff i := by decide
  exact (this i hi).trans hlo

theorem demo_clean : CleanDisk demoGeometry demoWorld.disk := by
  have hzero : demoGeometry.slot (fun _ => 0) journalSlotHdr
      = zeroBlock.bytes := by
    simp [slot, Image.load, zeroBlock]
  refine ⟨rfl, ?_⟩
  show ¬ Replayable (demoGeometry.slot (fun _ => 0) journalSlotHdr)
  rw [hzero]
  exact not_replayable_zeroBlock

theorem demo_reliable : demoWorld.Reliable (SealsSlot demoGeometry) where
  flushes _ hb := eq_of_mem_replicate hb
  refused _ ha hrc := by
    rw [eq_of_mem_replicate ha] at hrc
    exact absurd hrc (by decide)

theorem demo_target_outside {target : UInt32} (ht : target.toNat ≤ 1) (b : Block) :
    demoGeometry.Outside (demoGeometry.targetWrite target b.bytes) := by
  rintro a ⟨-, hhi⟩ hin
  have hlow := demo_journal_high hin
  have hlen : (b.bytes.take (2 * 512)).length ≤ 1024 := length_take_le _ _
  have : a < target.toNat * 2 * 512 + (b.bytes.take (2 * 512)).length := hhi
  omega

theorem demo_outside : ∀ op ∈ twoTxns, op.Outside demoGeometry := by
  intro op hop
  simp only [twoTxns, mem_cons, not_mem_nil, or_false] at hop
  rcases hop with rfl | rfl | rfl | rfl | rfl
  · trivial
  · exact demo_target_outside (by decide) _
  · trivial
  · trivial
  · exact demo_target_outside (by decide) _

/-- The journal while the first transaction is committed. -/
def firstTxn : Journal :=
  { demoJournal with
    sb := { demoJournal.sb with txnIdNext := 2 }
    txn := ⟨true, 1, [⟨0, fill 1⟩]⟩ }

/-- The journal while the second transaction is committed. -/
def secondTxn : Journal :=
  { firstTxn with
    sb := { firstTxn.sb with txnIdNext := 3 }
    txn := ⟨true, 2, [⟨1, fill 2⟩]⟩ }

/-- The medium after the third flush of the first commit. -/
def firstMedium : Image UInt8 :=
  ((demoWorld.disk.durable.storeAll
    [demoGeometry.slotWrite 2 (fill 1),
      demoGeometry.slotWrite journalSlotHdr (firstTxn.header 0).toBlock]).storeAll
    [demoGeometry.slotWrite journalSlotHdr (firstTxn.header 1).toBlock]).storeAll
    [demoGeometry.targetWrite 0 (fill 1).bytes]

/-- The disk after the first commit. -/
def firstDone : Disk UInt8 :=
  ⟨firstMedium, [demoGeometry.slotWrite journalSlotHdr zeroBlock,
    demoGeometry.slotWrite 0 firstTxn.sb.toBlock]⟩

theorem twoTxns_run :
    sessionRun ⟨demoJournal, []⟩ twoTxns demoWorld
      = .ok (⟨secondTxn, [firstTxn.txn.blocks]⟩, ⟨firstDone, [.done], []⟩) := rfl

theorem secondTxn_crash :
    journalCommit secondTxn ⟨firstDone, [.done], []⟩
      = .error (firstDone.issue (demoGeometry.slotWrite 2 (fill 2))) := rfl

/-- What the crash leaves: of the pending writes only the data block of the
second transaction has reached the medium. -/
def tornMedium : Image UInt8 :=
  firstMedium.storeAll [demoGeometry.slotWrite 2 (fill 2)]

/-- The header of the first transaction now stands over the data of the
second. -/
theorem redo_tornMedium : redo demoGeometry tornMedium = txnWrites demoGeometry [⟨0, fill 2⟩] := by
  have hother : ∀ {m : Image UInt8} {b : Block}, demoGeometry.slot
      (m.store (demoGeometry.slotWrite 2 b)) journalSlotHdr
      = demoGeometry.slot m journalSlotHdr :=
    slot_store_other (by decide) (by decide) (by decide)
  have hhdr : demoGeometry.slot tornMedium journalSlotHdr
      = (firstTxn.header 1).toBlock.bytes := by
    have hout := demo_target_outside (by decide : (0 : UInt32).toNat ≤ 1) (fill 1)
    simp only [tornMedium, firstMedium, Image.storeAll_cons, Image.storeAll_nil]
    rw [hother, slot_store_outside hout hdr_lt, slot_store_self]
  -- The header names the targets only, so it is the one of a transaction with
  -- the other data as well.
  refine redo_committed (j := { firstTxn with txn := ⟨true, 1, [⟨0, fill 2⟩]⟩ })
    (by decide) hhdr fun i hi => ?_
  obtain rfl : i = 0 := Nat.lt_one_iff.1 hi
  exact slot_store_self

/-- **The slot is reused too early.** Both transactions have their targets
outside the journal and every flush completes, but after the crash block 0
holds the data of block 1. -/
theorem slotReuse_tears :
    CleanDisk demoGeometry demoWorld.disk ∧ demoWorld.Reliable (SealsSlot demoGeometry) ∧
      (∀ op ∈ twoTxns, op.Outside demoGeometry) ∧
      ∃ s w' d ws,
        sessionRun ⟨demoJournal, []⟩ twoTxns demoWorld = .ok (s, w') ∧
        CrashesAt s.journal w' d ∧ ws.Sublist d.pending ∧
        ¬ RecoversPrefix s demoWorld.disk.durable (d.durable.storeAll ws) := by
  refine ⟨demo_clean, demo_reliable, demo_outside, _, _, _,
    [demoGeometry.slotWrite 2 (fill 2)], twoTxns_run, .inl secondTxn_crash,
    sublist_append_right _ _, ?_⟩
  rintro ⟨r, hr, L, hL, hview⟩
  have hrec : Recovers demoGeometry tornMedium
      (tornMedium.storeAll (redo demoGeometry tornMedium)) := by
    refine ⟨?_, fun _ _ => rfl⟩
    rw [redo_tornMedium]
    rintro w hw
    obtain rfl := mem_singleton.1 hw
    exact demo_target_outside (by decide) _
  obtain ⟨r', hr', hview'⟩ := journalReplay_recovers (j := secondTxn) rfl hrec
  have hout : ¬ demoGeometry.InJournal 0 := fun h => absurd (demo_journal_high h) (by decide)
  have hsame : r = r' := by
    have := hr.symm.trans hr'
    simpa using this
  -- The replay puts a two where both prefixes have a one.
  have htwo : r'.disk.view 0 = 2 := by
    rw [hview' 0 hout, redo_tornMedium]
    rfl
  have hone : r.disk.view 0 = 1 := by
    rw [hview 0 hout]
    rcases hL with rfl | rfl
    · rfl
    · rfl
  rw [hsame, htwo] at hone
  exact absurd hone (by decide)

/-- The same crash with the clearing of the first header kept. -/
theorem crash_atomic_twoTxns :
    RecoversPrefix ⟨secondTxn, [firstTxn.txn.blocks]⟩ demoWorld.disk.durable
      (firstMedium.storeAll [demoGeometry.slotWrite journalSlotHdr zeroBlock,
        demoGeometry.slotWrite 2 (fill 2)]) := by
  refine crash_atomic_of_headerReached (j := demoJournal)
    (d := firstDone.issue (demoGeometry.slotWrite 2 (fill 2))) rfl rfl
    demo_clean demo_reliable demo_outside twoTxns_run (.inl secondTxn_crash)
    ?_ ?_
  · exact (List.Sublist.refl _).cons _ |>.cons_cons _
  · exact fun _ => .inl ⟨_, mem_cons_self, rfl⟩

end UnixOs
