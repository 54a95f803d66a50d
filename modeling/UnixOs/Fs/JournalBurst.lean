import UnixOs.Fs.JournalReplay
import UnixOs.Lib.Crc

/-!
# What the checksum of a journal header detects (journal.c)

`journal_crc` takes the bytes in front of `crc` in order, each from its low bit up, so it
is the check of `Lib.Crc` over these bits (`toBitVec_foldl_crcByte`). A burst of at most 32
bits then always shows (`replay_rejects_burst`).
-/

namespace UnixOs

open List JournalTxnHeader

open Bytes

/-- `0xEDB88320`. -/
def crcGenerator : BitVec 32 := 0xEDB88320#32

/-- The bits of a byte, the low one first. -/
def byteBits (b : UInt8) : List Bool := (range 8).map b.toBitVec.getLsbD

/-- The bits of the checksummed fields, in order. -/
def JournalTxnHeader.bits (h : JournalTxnHeader) : List Bool :=
  (encodeWords h.words).flatMap byteBits

/-- One round of the inner loop (journal.c:60). -/
def crcRound (crc : UInt32) : UInt32 := (crc >>> 1) ^^^ (0xEDB88320 &&& (0 - (crc &&& 1)))

theorem toBitVec_crcRound (c : UInt32) :
    (crcRound c).toBitVec = Crc.shift crcGenerator c.toBitVec := by
  have hmask : (0 - (c &&& 1)).toBitVec
      = if c.toBitVec.getLsbD 0 then 0xFFFFFFFF#32 else 0#32 := by
    rw [UInt32.toBitVec_sub, UInt32.toBitVec_and]
    show 0#32 - (c.toBitVec &&& 1#32) = _
    rw [BitVec.and_one_eq_setWidth_ofBool_getLsbD]
    cases c.toBitVec.getLsbD 0 <;> rfl
  have hshift : (c >>> 1).toBitVec = c.toBitVec >>> 1 := rfl
  rw [crcRound, UInt32.toBitVec_xor, UInt32.toBitVec_and, hmask, hshift, Crc.shift]
  cases c.toBitVec.getLsbD 0 <;> rfl

theorem length_byteBits (b : UInt8) : (byteBits b).length = 8 := by
  rw [byteBits, length_map, length_range]

theorem toBitVec_iterate_crcRound (n : Nat) (c : UInt32) :
    (crcRound^[n] c).toBitVec = (Crc.shift crcGenerator)^[n] c.toBitVec := by
  induction n generalizing c with
  | zero => rfl
  | succ n ih =>
    rw [Function.iterate_succ_apply, Function.iterate_succ_apply, ih, toBitVec_crcRound]

/-- A register with the bits of a byte is zero after the byte. -/
theorem run_byteBits (b : UInt8) :
    Crc.run crcGenerator b.toUInt32.toBitVec (byteBits b) = 0#32 := by
  have hall : ∀ v : BitVec 8,
      Crc.run crcGenerator (v.setWidth 32) ((range 8).map v.getLsbD) = 0#32 := by
    decide +kernel
  exact hall b.toBitVec

/-- A byte put in at once is a byte fed bit by bit. -/
theorem toBitVec_crcByte (c : UInt32) (b : UInt8) :
    (crcByte c b).toBitVec = Crc.run crcGenerator c.toBitVec (byteBits b) := by
  have hround : crcByte c b = crcRound^[8] (c ^^^ b.toUInt32) := rfl
  have hzero : replicate 8 false = zipWith xor (byteBits b) (byteBits b) := by
    simp [byteBits, range, range.loop]
  rw [hround, toBitVec_iterate_crcRound, ← Crc.run_replicate_false, hzero, UInt32.toBitVec_xor,
    Crc.run_xor rfl, run_byteBits, BitVec.xor_zero]

theorem toBitVec_foldl_crcByte (l : List UInt8) (c : UInt32) :
    (l.foldl crcByte c).toBitVec = Crc.run crcGenerator c.toBitVec (l.flatMap byteBits) := by
  induction l generalizing c with
  | nil => rfl
  | cons b l ih => rw [foldl_cons, ih, toBitVec_crcByte, flatMap_cons, Crc.run_append]

theorem byteBits_inj {b b' : UInt8} (h : byteBits b = byteBits b') : b = b' := by
  refine UInt8.toBitVec_inj.1 (BitVec.eq_of_getLsbD_eq fun i hi => ?_)
  have hget := congrArg (fun l => l.getD i false) h
  simpa [byteBits, hi] using hget

/-- The bits tell the bytes. -/
theorem flatMap_byteBits_inj {l l' : List UInt8} (h : l.flatMap byteBits = l'.flatMap byteBits) :
    l = l' := by
  induction l generalizing l' with
  | nil =>
    cases l' with
    | nil => rfl
    | cons b' l' =>
      have hlen := congrArg length h
      rw [flatMap_cons, length_append, length_byteBits, flatMap_nil, length_nil] at hlen
      omega
  | cons b l ih =>
    cases l' with
    | nil =>
      have hlen := congrArg length h
      rw [flatMap_cons, length_append, length_byteBits, flatMap_nil, length_nil] at hlen
      omega
    | cons b' l' =>
      rw [flatMap_cons, flatMap_cons] at h
      obtain ⟨hb, hl⟩ := append_inj h (by rw [length_byteBits, length_byteBits])
      rw [byteBits_inj hb, ih hl]

namespace JournalTxnHeader

variable {h h' : JournalTxnHeader}

theorem length_bits : h.bits.length = 384 := by
  have hlen : ∀ l : List UInt8, (l.flatMap byteBits).length = 8 * l.length := by
    intro l
    induction l with
    | nil => rfl
    | cons b l ih =>
      rw [flatMap_cons, length_append, length_byteBits, ih, length_cons]
      omega
  rw [bits, hlen, length_encodeWords, length_words]

theorem bits_inj (heq : h.bits = h'.bits) : h.words = h'.words := by
  have hbytes : encodeWords h.words = encodeWords h'.words := flatMap_byteBits_inj heq
  refine ext_getElem (by rw [length_words, length_words]) fun i hi hi' => ?_
  have hword := wordAt_encodeWords h.words [] hi
  rw [hbytes, wordAt_encodeWords h'.words [] hi'] at hword
  exact hword.symm

end JournalTxnHeader

/-- Headers whose checksummed fields differ only in a window of 32 bits have different
checksums, so a replay that takes the one does not take the other. -/
theorem replay_rejects_burst {h h' : JournalTxnHeader} (hne : h.words ≠ h'.words) {k : Nat}
    (hburst : ∀ i, i < k ∨ k + 32 ≤ i → h.bits.getD i false = h'.bits.getD i false) :
    journalCrc h ≠ journalCrc h' ∧
      ∀ bytes bytes', ofBlock bytes = h → ofBlock bytes' = h' →
        h.crc = h'.crc → Replayable bytes → ¬ Replayable bytes' := by
  have hcrc : journalCrc h ≠ journalCrc h' := by
    intro heq
    have hrun := Crc.run_ne_of_burst (p := crcGenerator) (c := 0xFFFFFFFF#32) (by decide)
      (length_bits.trans length_bits.symm)
      (fun hb => hne (bits_inj hb)) hburst
    refine hrun ?_
    have hfold := UInt32.not_inj.1 heq
    have hvec := congrArg UInt32.toBitVec hfold
    rwa [toBitVec_foldl_crcByte, toBitVec_foldl_crcByte] at hvec
  refine ⟨hcrc, ?_⟩
  rintro bytes bytes' rfl rfl hsame hok hok'
  have hleft : journalCrc (ofBlock bytes) = _ := hok.2.1
  have hright : journalCrc (ofBlock bytes') = _ := hok'.2.1
  exact hcrc (hleft.trans (hsame.trans hright.symm))

/-- A committed transaction with one block. -/
def committedHeader : JournalTxnHeader :=
  let h : JournalTxnHeader := ⟨journalMagic, 7, 1, 1, fun _ => 5, 0⟩
  { h with crc := journalCrc h }

theorem replayable_committedHeader : Replayable committedHeader.toBlock.bytes := by
  rw [Replayable, ofBlock_toBlock]
  exact ⟨⟨rfl, rfl⟩, rfl, by decide, by decide⟩

/-- A header with another number is not replayed. -/
theorem flipped_txnId_rejected : Replayable committedHeader.toBlock.bytes ∧
    ¬ Replayable ({ committedHeader with txnId := 6 } : JournalTxnHeader).toBlock.bytes := by
  have hbits : ∀ i < 384, i < 32 ∨ 32 + 32 ≤ i → committedHeader.bits.getD i false
      = ({ committedHeader with txnId := 6 } : JournalTxnHeader).bits.getD i false := by
    decide +kernel
  have hburst : ∀ i, i < 32 ∨ 32 + 32 ≤ i → committedHeader.bits.getD i false
      = ({ committedHeader with txnId := 6 } : JournalTxnHeader).bits.getD i false := by
    intro i hi
    by_cases hlt : i < 384
    · exact hbits i hlt hi
    · have hlen : ∀ h : JournalTxnHeader, h.bits.length ≤ i := fun h => by
        rw [length_bits]
        omega
      rw [getD_eq_default _ _ (hlen _), getD_eq_default _ _ (hlen _)]
  have hne : committedHeader.words ≠
      ({ committedHeader with txnId := 6 } : JournalTxnHeader).words :=
    fun heq => absurd (congrArg (fun ws => ws.getD 1 0) heq) (by decide)
  exact ⟨replayable_committedHeader, (replay_rejects_burst hne hburst).2 _ _
    (ofBlock_toBlock _) (ofBlock_toBlock _) rfl
    replayable_committedHeader⟩

end UnixOs
