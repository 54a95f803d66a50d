import UnixOs.Mm.FreshMemory
import UnixOs.Mm.UserBytes

/-!
# The image of a program (elf_loader.c)

`load_elf_process` streams every `PT_LOAD` segment into fresh frames and maps them
one by one, over whatever the page held. So a page that two segments share ends up
with the frame of the later one, which has zeros where the earlier one had its
bytes. Reads that end at the end of the file leave zeros as well.

`owner` is the segment whose frame a page ends up with, and `userByte_loadElfProcess`
says what every byte of the process is after a load that succeeds.
-/

namespace UnixOs

open Function List Option Errno
open BitVec (ofNat toNat_ofNat)

/-- A segment, the file it comes from and the base address it is loaded at. -/
structure Placed where
  ph : Phdr
  file : List (BitVec 8)
  base : Word

/-- What the pages of a segment get: `x` counts from a position of the file with
`rem` bytes to read. -/
def streamed (file : List (BitVec 8)) (pos rem x : Nat) : BitVec 8 :=
  if x < rem then (file[pos + x]?).getD 0 else 0

namespace Placed

variable (s : Placed)

/-- `actual_vaddr` (elf_loader.c:110). -/
def start : Word := s.ph.pVaddr + s.base

/-- The number of the page after the last page of the segment. -/
def endPage : Nat := (s.start.toNat + s.ph.pMemsz.toNat + 4095) / 4096

/-- The segment has a page with the address `a`. -/
def Covers (a : Word) : Prop :=
  s.ph.pType = ptLoad ∧ s.ph.pMemsz ≠ 0 ∧ s.start.toNat / 4096 ≤ a.toNat / 4096 ∧
    a.toNat / 4096 < s.endPage

instance (a : Word) : Decidable (s.Covers a) :=
  inferInstanceAs (Decidable (_ ∧ _ ∧ _ ∧ _))

/-- The byte the page of the segment has at `a`. -/
def byteAt (a : Word) : BitVec 8 :=
  if a.toNat < s.start.toNat then 0
  else streamed s.file s.ph.pOffset.toNat s.ph.pFilesz.toNat (a.toNat - s.start.toNat)

/-- The checks of `map_segment_streaming` (elf_loader.c:103). -/
def Accepted : Prop :=
  s.ph.pType = ptLoad → s.ph.pMemsz ≠ 0 →
    userCodeBase.toNat ≤ s.start.toNat ∧ s.start.toNat < userSpaceEnd.toNat ∧
      s.start.toNat + s.ph.pMemsz.toNat + 4095 < 2 ^ 32

instance : Decidable s.Accepted := inferInstanceAs (Decidable (_ → _ → _ ∧ _ ∧ _))

end Placed

/-- The segment whose frame is mapped at `a` after all were loaded in their order. -/
def owner (segs : List Placed) (a : Word) : Option Placed :=
  segs.reverse.find? fun s => decide (s.Covers a)

theorem owner_cons (s : Placed) (segs : List Placed) (a : Word) :
    owner (s :: segs) a = (owner segs a).or (if s.Covers a then some s else none) := by
  rw [owner, reverse_cons, find?_append, owner]
  by_cases h : s.Covers a
  · rw [if_pos h, find?_cons_of_pos (by simpa using h)]
  · rw [if_neg h, find?_cons_of_neg (by simpa using h), find?_nil]

theorem owner_append (segs segs' : List Placed) (a : Word) :
    owner (segs ++ segs') a = (owner segs' a).or (owner segs a) := by
  rw [owner, reverse_append, find?_append]
  rfl

/-- The byte at `a` after the segments were loaded, where it was `old` before. -/
def loadedByte (segs : List Placed) (a : Word) (old : Option (BitVec 8)) :
    Option (BitVec 8) :=
  match owner segs a with
  | some s => some (s.byteAt a)
  | none => old

theorem loadedByte_append (segs segs' : List Placed) (a : Word) (old : Option (BitVec 8)) :
    loadedByte (segs ++ segs') a old = loadedByte segs' a (loadedByte segs a old) := by
  rw [loadedByte, owner_append, loadedByte]
  cases owner segs' a <;> rfl

theorem loadedByte_singleton (s : Placed) (a : Word) (old : Option (BitVec 8)) :
    loadedByte [s] a old = if s.Covers a then some (s.byteAt a) else old := by
  rw [loadedByte, owner_cons]
  by_cases h : s.Covers a
  · rw [if_pos h, if_pos h]
    rfl
  · rw [if_neg h, if_neg h]
    rfl

/-! ## The pages of a segment -/

theorem streamed_of_le {file : List (BitVec 8)} {pos rem x : Nat}
    (h : rem ≤ x ∨ file.length ≤ pos + x) : streamed file pos rem x = 0 := by
  unfold streamed
  split
  · rw [getElem?_eq_none (by omega)]
    rfl
  · rfl

/-- After the bytes of a page the stream goes on where they end. -/
theorem streamed_next (file : List (BitVec 8)) (pos rem room x : Nat) :
    streamed file (pos + ((file.drop pos).take (min rem room)).length)
        (rem - ((file.drop pos).take (min rem room)).length) x
      = streamed file pos rem (room + x) := by
  rw [length_take, length_drop]
  by_cases hfull : min (min rem room) (file.length - pos) = room
  · rw [hfull]
    simp only [streamed, add_assoc]
    exact if_congr (by omega) rfl rfl
  · -- A page that was not filled: at the end of the segment or of the file.
    rw [streamed_of_le (by omega), streamed_of_le (by omega)]

theorem getElem?_drop_take (file : List (BitVec 8)) (pos n x : Nat) :
    ((file.drop pos).take n)[x]?.getD 0 = if x < n then (file[pos + x]?).getD 0 else 0 := by
  rw [getElem?_take]
  split
  · rw [getElem?_drop]
  · rfl

/-- The content of a page: zeros up to `off`, then the stream. -/
theorem pageByte_filled (file : List (BitVec 8)) {off o : Nat} (pos rem : Nat)
    (hoff : off ≤ 4096) (ho : o < 4096) :
    Mm.pageByte (Mm.overlay (fun _ => 0) off ((file.drop pos).take (min rem (4096 - off)))) o
      = if o < off then 0 else streamed file pos rem (o - off) := by
  have hzero : Mm.pageByte (fun _ => 0) o = 0 := by simp [Mm.pageByte, Word.byte]
  rw [Mm.pageByte_overlay _ (by rw [length_take]; omega) ho, hzero, getElem?_drop_take]
  by_cases hin : o < off
  · rw [if_pos hin, if_neg (by omega)]
  · rw [if_neg hin, if_pos (by omega)]
    exact if_congr (by omega) rfl rfl

namespace Mm

variable {S S' : Mm} {d f : Frame} {v : VPage} {flags : Flags} {held : Frame → Nat}

theorem userByte_sets {w : Word} {ws : Idx → Word} (hset : Sets held S S' d v (some (w, ws)))
    (h : SpaceInv S held) (h' : SpaceInv S' held) (hd : d ∈ S.dirs) (b : Word) :
    S'.userByte d b = if b.vpage = v then some (pageByte ws (b.toNat % 4096))
      else S.userByte d b := by
  rw [userByte_eq h' (hset.dirs ▸ hd), userByte_eq h hd, hset.view]
  by_cases hb : b.vpage = v
  · rw [if_pos ⟨rfl, hb⟩, if_pos hb]
    rfl
  · rw [if_neg fun hc => hb hc.2, if_neg hb]

theorem mem_filled (hpool : f.Pool) (off : Nat) (bytes : List (BitVec 8)) :
    ((S.zeroFrame f).copyToFrame f off bytes).mem f = overlay (fun _ => 0) off bytes := by
  rw [zeroFrame_of_pool hpool]
  simp only [copyToFrame]
  rw [if_pos hpool.2]
  simp only [setFrame, update_self]

theorem vpage_eq_pageAfter {a b : Word} {k : Nat} (hfit : a.toNat + 4096 * k < 2 ^ 32) :
    b.vpage = pageAfter a k ↔ b.toNat / 4096 = a.toNat / 4096 + k := by
  rw [pageAfter, vpage_eq_iff, BitVec.toNat_add, toNat_ofNat]
  omega

/-- One round of the loop: a frame that was free is filled and mapped at `a`. It
fails only where there is no room. -/
theorem segmentPages_round (hp : flags.present = true) (hu : flags.user = true)
    (hd : d ∈ S.dirs) (hinv : Inv (· ≤ ·) S held) (c : Nat) (file : List (BitVec 8)) {a : Word}
    (ha : a.vpage.1.IsUser) (as : List Word) (off pos rem : Nat) :
    let bytes := (file.drop pos).take (min rem (4096 - off))
    ((segmentPages c d flags file S (a :: as) off pos rem).2 < 0 ∧ ∀ b, ¬ Room b S c 2) ∨
    ∃ S2 w, segmentPages c d flags file S (a :: as) off pos rem
        = segmentPages c d flags file S2 as 0 (pos + bytes.length) (rem - bytes.length) ∧
      Inv (· ≤ ·) S2 held ∧
      Sets held S S2 d a.vpage (some (w, overlay (fun _ => 0) off bytes)) ∧
      ∀ b n, Room b S c (n + 2) → Room b S2 c n := by
  intro bytes
  rw [segmentPages]
  rcases (Twin.refl S).allocate_cases hinv (countRel_le 0xFFFF) c with
    ⟨hx, -⟩ | ⟨S1, T1, f, hx, -, htaken⟩
  · rw [hx]
    refine .inl ⟨show -ENOMEM < 0 by decide, fun b hroom => ?_⟩
    obtain ⟨S', f, heq, -, -⟩ := hroom.allocateFrame
    rw [hx] at heq
    cases heq
  · have hf : f ≠ 0 := by
      rintro rfl
      exact absurd htaken.pool.1 (by decide)
    have hfilled : ∀ b n, Room b S c (n + 1) →
        Room b ((S1.zeroFrame f).copyToFrame f off bytes) c n := by
      intro b n hroom
      obtain ⟨S', f', heq, -, hroom'⟩ := hroom.allocateFrame
      rw [hx] at heq
      obtain ⟨rfl, he⟩ := Prod.mk.inj heq
      simp only [copyToFrame]
      rw [if_pos htaken.pool.2]
      exact (hroom'.zeroFrame f).setFrame f _
    rw [hx]
    simp only [if_neg hf]
    rcases (htaken.cleared.copyToFrame off bytes).mapPage hd ha hp hu c with
      ⟨S2, T2, hx2, -, -, -, -⟩ | ⟨S2, T2, hx2, -, -, hinv2, hset⟩
    · rw [hx2]
      refine .inl ⟨show -Errno.EIO < 0 by decide, fun b hroom => ?_⟩
      obtain ⟨S', heq, -⟩ := (hfilled b 1 hroom).mapPage d a.vpage f flags
      rw [hx2] at heq
      cases heq
    · rw [mem_filled htaken.pool] at hset
      refine .inr ⟨S2, _, by rw [hx2], hinv2, hset, fun b n hroom => ?_⟩
      obtain ⟨S', heq, hroom'⟩ := (hfilled b (n + 1) hroom).mapPage d a.vpage f flags
      rw [hx2] at heq
      cases heq
      exact hroom'

theorem Sets.pte_isSome {w : Word} {ws : Idx → Word}
    (hset : Sets held S S' d v (some (w, ws))) {v' : VPage}
    (h : v' = v ∨ (S.pte d v').isSome) : (S'.pte d v').isSome := by
  rw [pte_eq_view, hset.view]
  by_cases hv : v' = v
  · rw [if_pos ⟨rfl, hv⟩]
    rfl
  · rw [if_neg fun hc => hv hc.2, ← pte_eq_view]
    exact h.resolve_left hv

/-- The bytes of a process after the loop over the pages of a segment. -/
theorem userByte_segmentPages (hp : flags.present = true) (hu : flags.user = true)
    (hd : d ∈ S.dirs) (c : Nat) (file : List (BitVec 8)) {a : Word}
    (hlo : 0x2000000 ≤ a.toNat) (hhi : a.toNat < 0x80000000) {k n : Nat}
    (hfit : a.toNat + 4096 * (k + n) ≤ 2 ^ 32) {off pos rem : Nat} (hoff : off ≤ 4096)
    (hall : ∀ j < k, (S.pte d (pageAfter a j)).isSome) (hinv : Inv (· ≤ ·) S held)
    (hok : ¬ (segmentPages c d flags file S
      ((range' k n).map fun k => a + ofNat 32 (4096 * k)) off pos rem).2 < 0) (b : Word) :
    (segmentPages c d flags file S
        ((range' k n).map fun k => a + ofNat 32 (4096 * k)) off pos rem).1.userByte
        d b
      = if a.toNat / 4096 + k ≤ b.toNat / 4096 ∧ b.toNat / 4096 < a.toNat / 4096 + k + n then
          some (if b.toNat < (a.toNat / 4096 + k) * 4096 + off then 0
            else streamed file pos rem (b.toNat - ((a.toNat / 4096 + k) * 4096 + off)))
        else S.userByte d b := by
  -- Each round maps page `k`; the rest of the stream is for the pages after it.
  induction n generalizing S k off pos rem with
  | zero =>
    rw [if_neg (by omega)]
    rfl
  | succ n ih =>
    rw [range'_succ, map_cons] at hok ⊢
    have huser : (pageAfter a k).1.IsUser :=
      isUser_pageAfter hlo hhi (hinv.mapped_le_pool (by omega) hall)
    rcases segmentPages_round hp hu hd hinv c file huser
        ((range' (k + 1) n).map fun k => a + ofNat 32 (4096 * k)) off pos rem with
      ⟨hneg, -⟩ | ⟨S2, w, heq, hinv2, hset, -⟩
    · exact absurd hneg hok
    · have hall2 : ∀ j < k + 1, (S2.pte d (pageAfter a j)).isSome := by
        intro j hj
        refine hset.pte_isSome ?_
        rcases Nat.lt_succ_iff_lt_or_eq.1 hj with hj | rfl
        · exact .inr (hall j hj)
        · exact .inl rfl
      have hbyte := userByte_sets hset hinv.space hinv2.space hd b
      rw [pageByte_filled file pos rem hoff (Nat.mod_lt _ (by decide))] at hbyte
      have hpage : b.vpage = (a + ofNat 32 (4096 * k)).vpage
          ↔ b.toNat / 4096 = a.toNat / 4096 + k := vpage_eq_pageAfter (by omega)
      simp only [hpage] at hbyte
      rw [heq] at hok ⊢
      rw [ih (hset.dirs ▸ hd) (by omega) (Nat.zero_le _) hall2 hinv2 hok, hbyte]
      by_cases hlater : a.toNat / 4096 + (k + 1) ≤ b.toNat / 4096 ∧
          b.toNat / 4096 < a.toNat / 4096 + (k + 1) + n
      · rw [if_pos hlater, if_neg (by omega), if_pos (by omega), if_neg (by omega), streamed_next]
        congr 2
        omega
      · rw [if_neg hlater]
        by_cases hnow : b.toNat / 4096 = a.toNat / 4096 + k
        · have hin : a.toNat / 4096 + k ≤ b.toNat / 4096 ∧
              b.toNat / 4096 < a.toNat / 4096 + k + (n + 1) := by omega
          have hlow : b.toNat % 4096 < off ↔ b.toNat < (a.toNat / 4096 + k) * 4096 + off := by omega
          have hat : b.toNat % 4096 - off
              = b.toNat - ((a.toNat / 4096 + k) * 4096 + off) := by omega
          rw [if_pos hnow, if_pos hin, hat]
          simp only [hlow]
        · rw [if_neg hnow, if_neg (by omega)]

/-! ## A segment -/

theorem toNat_pageOffset (a : Word) : (a &&& ~~~ pageAddrMask).toNat = a.toNat % 4096 := by
  have hmask : (~~~ pageAddrMask).toNat = 2 ^ 12 - 1 := by decide
  rw [BitVec.toNat_and, hmask, Nat.and_two_pow_sub_one_eq_mod]

/-- A segment that is mapped has passed the checks. -/
theorem accepted_of_mapSegmentStreaming {s : Placed} {c : Nat} {seekOk : Bool}
    (hok : ¬ (S.mapSegmentStreaming c d s.ph seekOk s.file s.base).2 < 0) : s.Accepted := by
  intro hload hmem
  simp only [mapSegmentStreaming] at hok
  rw [if_neg (not_or.2 ⟨not_not.2 hload, hmem⟩)] at hok
  split at hok
  · exact absurd (show -EFAULT < 0 by decide) hok
  next hrange =>
  split at hok
  · exact absurd (show -EOVERFLOW < 0 by decide) hok
  next hend =>
  obtain ⟨hlo, hhi⟩ := not_or.1 hrange
  rw [BitVec.lt_def] at hlo
  rw [BitVec.le_def] at hhi
  simp only [Placed.start]
  omega

/-- The bytes after one segment. -/
theorem userByte_mapSegmentStreaming (hinv : Inv (· ≤ ·) S held) (hd : d ∈ S.dirs) (c : Nat)
    (s : Placed) (seekOk : Bool)
    (hok : ¬ (S.mapSegmentStreaming c d s.ph seekOk s.file s.base).2 < 0) (b : Word) :
    (S.mapSegmentStreaming c d s.ph seekOk s.file s.base).1.userByte d b
      = loadedByte [s] b (S.userByte d b) := by
  have hacc := accepted_of_mapSegmentStreaming hok
  rw [loadedByte_singleton]
  simp only [mapSegmentStreaming] at hok ⊢
  split at hok
  -- nothing is loaded, and nothing is covered
  next hskip =>
    rw [if_pos hskip, if_neg]
    rintro ⟨hload, hmem, -⟩
    exact hskip.elim (fun h => h hload) hmem
  next hskip =>
  obtain ⟨hload, hmem⟩ := not_or.1 hskip
  replace hload := not_not.1 hload
  obtain ⟨hlo, hhi, hend⟩ := hacc hload hmem
  rw [if_neg hskip]
  split at hok
  · exact absurd (show -EFAULT < 0 by decide) hok
  next hrange =>
  rw [if_neg hrange]
  split at hok
  · exact absurd (show -EOVERFLOW < 0 by decide) hok
  next hover =>
  rw [if_neg hover]
  split at hok
  · exact absurd (show -Errno.EIO < 0 by decide) hok
  next hseek =>
  rw [if_neg hseek]
  -- the pages of the segment, and where its first byte lies in the first of them
  have hbase : userCodeBase.toNat = 0x08048000 := rfl
  have hlast : userSpaceEnd.toNat = 0x80000000 := rfl
  simp only [Placed.start] at hlo hhi hend
  have hpage := toNat_pageAddrMask (s.ph.pVaddr + s.base)
  have hstop := toNat_pageAddrMask
    (ofNat 32 ((s.ph.pVaddr + s.base).toNat + s.ph.pMemsz.toNat + 4095))
  rw [toNat_ofNat, Nat.mod_eq_of_lt hend] at hstop
  rw [segmentRange, pagesFromTo, range_eq_range'] at hok ⊢
  rw [userByte_segmentPages (userFlags_present _) (userFlags_user _) hd c s.file (by omega)
    (by omega) (by omega) (by rw [toNat_pageOffset]; omega)
    (fun j hj => absurd hj (Nat.not_lt_zero j)) hinv hok, toNat_pageOffset]
  have hcover : s.Covers b ↔ (s.ph.pVaddr + s.base).toNat / 4096 ≤ b.toNat / 4096 ∧
      b.toNat / 4096 < s.endPage := by
    simp only [Placed.Covers, hload, ne_eq, hmem, not_false_eq_true, true_and, Placed.start]
  simp only [hcover, Placed.byteAt, Placed.endPage, Placed.start, hpage, hstop]
  refine if_congr (by omega) ?_ rfl
  rw [show ((s.ph.pVaddr + s.base).toNat / 4096 * 4096 / 4096 + 0) * 4096
    + (s.ph.pVaddr + s.base).toNat % 4096 = (s.ph.pVaddr + s.base).toNat by omega]
  rfl

/-! ## A file -/

end Mm

/-- The segments of a file at a base address. -/
def ElfFile.placed (img : ElfFile) (base : Word) : List Placed :=
  img.phdrs.map fun x => ⟨x.1, img.file, base⟩

namespace Mm

variable {S : Mm} {d : Frame} {held : Frame → Nat}

/-- The bytes after the segments of a file, by induction on them. -/
theorem userByte_elfLoadSegments (hinv : Inv (· ≤ ·) S held) (hd : d ∈ S.dirs) (c : Nat)
    (img : ElfFile) (base brkEnd : Word)
    (hok : ¬ (elfLoadSegments c d img.file base S img.phdrs brkEnd).2.1 < 0) :
    (∀ s ∈ img.placed base, s.Accepted) ∧
      ∀ b, (elfLoadSegments c d img.file base S img.phdrs brkEnd).1.userByte d b
        = loadedByte (img.placed base) b (S.userByte d b) := by
  obtain ⟨file, phs⟩ := img
  -- The segments after the first find what it left.
  induction phs generalizing S brkEnd with
  | nil => exact ⟨fun s hs => absurd hs not_mem_nil, fun b => rfl⟩
  | cons x phs ih =>
    obtain ⟨ph, seekOk⟩ := x
    have hfirst := userByte_mapSegmentStreaming hinv hd c ⟨ph, file, base⟩ seekOk
    have haccept := fun hok => accepted_of_mapSegmentStreaming
      (s := ⟨ph, file, base⟩) (hok : ¬ (S.mapSegmentStreaming c d ph seekOk file base).2 < 0)
    obtain ⟨-, -, hinv1, hdirs⟩ := (Twin.refl S).mapSegmentStreaming hinv hd c ph seekOk file base
    rw [elfLoadSegments] at hok ⊢
    cases hx : S.mapSegmentStreaming c d ph seekOk file base with
    | mk S1 rc =>
      simp only [hx] at hok hfirst haccept hinv1 hdirs ⊢
      split at hok
      next hneg => exact absurd hneg hok
      next hneg =>
      obtain ⟨haccs, hrest⟩ := ih hinv1 (hdirs ▸ hd) _ hok
      rw [if_neg hneg]
      refine ⟨?_, fun b => ?_⟩
      · intro s hs
        rcases mem_cons.1 hs with rfl | hs
        · exact haccept hneg
        · exact haccs s hs
      · rw [hrest, hfirst hneg, ← loadedByte_append]
        rfl

end Mm

namespace Vm

variable {S : Vm} {d : Frame} {c : Nat} {inp : ElfInput}

/-- The segments of the interpreter, which goes to `mmap_next_addr`. -/
def interpPlaced (S : Vm) (d : Frame) (inp : ElfInput) : List Placed :=
  match inp.interp with
  | none => []
  | some (_, _, img) => img.placed (S.proc d).mmapNext

/-- The segments `load_elf_process` loads, in their order. -/
def placed (S : Vm) (d : Frame) (inp : ElfInput) : List Placed :=
  inp.exe.placed inp.base ++ S.interpPlaced d inp

theorem interpRc_neg {rc : Int} (h : rc < 0) {entry : Word} : interpRc rc entry < 0 := by
  rw [interpRc, if_pos h]
  exact h

/-- A load of the interpreter that succeeds is one of its segments. -/
theorem loadInterpreter_ok {pathRc openRc : Int} {img : ElfFile}
    (hload : ¬ (S.loadInterpreter c d pathRc openRc img).2 < 0) :
    (S.loadInterpreter c d pathRc openRc img).1.mm
      = (Mm.elfLoadSegments c d img.file (S.proc d).mmapNext S.mm img.phdrs 0).1 ∧
    ¬ (Mm.elfLoadSegments c d img.file (S.proc d).mmapNext S.mm img.phdrs 0).2.1 < 0 := by
  simp only [loadInterpreter] at hload ⊢
  split at hload
  · exact absurd (show -EINVAL < 0 by decide) hload
  next hpath =>
  rw [if_neg hpath]
  split at hload
  · exact absurd (show -ENOMEM < 0 by decide) hload
  next hroom =>
  rw [if_neg hroom]
  split at hload
  next hopen => exact absurd hopen hload
  next hopen =>
  rw [if_neg hopen]
  exact ⟨rfl, fun hneg => hload (interpRc_neg hneg)⟩

/-- A load that succeeds goes on after the segments of the program. -/
theorem loadElfProcess_ok (hload : ¬ (S.loadElfProcess c d inp).2 < 0) :
    ¬ (Mm.elfLoadSegments c d inp.exe.file inp.base S.mm inp.exe.phdrs 0).2.1 < 0 ∧
    ∃ S2 : Vm, S2.mm = (Mm.elfLoadSegments c d inp.exe.file inp.base S.mm inp.exe.phdrs 0).1 ∧
      (S2.proc d).mmapNext = (S.proc d).mmapNext ∧
      S.loadElfProcess c d inp = match inp.interp with
        | none => (S2, 0)
        | some (pathRc, openRc, img) => S2.loadInterpreter c d pathRc openRc img := by
  simp only [loadElfProcess] at hload ⊢
  split at hload
  next hopen => exact absurd hopen hload
  next hopen =>
  rw [if_neg hopen]
  split at hload
  next hneg => exact absurd hneg hload
  next hneg =>
  rw [if_neg hneg]
  refine ⟨hneg, _, ?_, ?_, rfl⟩
  -- Setting the end of the heap leaves the memory and the place for mappings.
  · split <;> rfl
  · split
    · simp only [setProc, update_self]
    · rfl

/-- The bytes of a process after `load_elf_process`. -/
theorem userByte_loadElfProcess (hinv : Mm.Inv (· ≤ ·) S.mm Mm.noneHeld)
    (hd : d ∈ S.mm.dirs) (hload : ¬ (S.loadElfProcess c d inp).2 < 0) :
    (∀ s ∈ S.placed d inp, s.Accepted) ∧
      ∀ b, (S.loadElfProcess c d inp).1.mm.userByte d b
        = loadedByte (S.placed d inp) b (S.mm.userByte d b) := by
  obtain ⟨hneg, S2, hmm, hnext, heq⟩ := loadElfProcess_ok hload
  obtain ⟨haccs, hbytes⟩ := Mm.userByte_elfLoadSegments hinv hd c inp.exe inp.base 0 hneg
  obtain ⟨-, -, hinv1, hdirs⟩ := Mm.Twin.elfLoadSegments hd c inp.exe.file inp.base
    inp.exe.phdrs 0 (Mm.Twin.refl S.mm) hinv
  rw [heq] at hload ⊢
  cases hi : inp.interp with
  | none =>
    simp only [placed, interpPlaced, hi, append_nil, hmm]
    exact ⟨haccs, hbytes⟩
  | some x =>
    rw [hi] at hload
    obtain ⟨hmm2, hneg2⟩ := loadInterpreter_ok hload
    obtain ⟨haccs2, hbytes2⟩ :=
      Mm.userByte_elfLoadSegments (hmm ▸ hinv1) (hmm ▸ hdirs ▸ hd) c x.2.2 _ 0 hneg2
    rw [hnext] at haccs2 hbytes2
    simp only [placed, interpPlaced, hi]
    refine ⟨fun s hs => (mem_append.1 hs).elim (haccs s) (haccs2 s), fun b => ?_⟩
    rw [hmm2, hnext, hbytes2, hmm, hbytes, ← loadedByte_append]

end Vm

/-! ## Loads that succeed -/

namespace Mm

variable {S : Mm} {d : Frame} {flags : Flags} {held : Frame → Nat} {b c : Nat}

/-- Each page takes a frame and perhaps one for its table. -/
theorem Room.segmentPages (hp : flags.present = true) (hu : flags.user = true)
    (hd : d ∈ S.dirs) (hinv : Inv (· ≤ ·) S held) (file : List (BitVec 8)) {as : List Word}
    (has : ∀ a ∈ as, a.vpage.1.IsUser) {n : Nat} (off pos rem : Nat)
    (h : Room b S c (n + 2 * as.length)) :
    ∃ S', segmentPages c d flags file S as off pos rem = (S', 0) ∧ Room b S' c n := by
  induction as generalizing S off pos rem with
  | nil => exact ⟨S, rfl, h⟩
  | cons a as ih =>
    rw [length_cons] at h
    rcases segmentPages_round hp hu hd hinv c file (has a mem_cons_self) as off pos rem with
      ⟨-, hfull⟩ | ⟨S2, w, heq, hinv2, hset, hroom⟩
    · exact absurd (h.mono (by omega)) (hfull b)
    · rw [heq]
      exact ih (hset.dirs ▸ hd) hinv2 (fun x hx => has x (.tail a hx)) _ _ _ (hroom b _ h)

/-- A segment that passes the checks is loaded if there is room for its pages. -/
theorem Room.mapSegmentStreaming (hd : d ∈ S.dirs) (hinv : Inv (· ≤ ·) S held) {s : Placed}
    (hacc : s.Accepted) (hshort : s.start.toNat + s.ph.pMemsz.toNat ≤ 0xC0000000) {n : Nat}
    (h : Room b S c (n + 2 * (segmentRange s.start s.ph.pMemsz).length)) :
    ∃ S', S.mapSegmentStreaming c d s.ph true s.file s.base = (S', 0) ∧ Room b S' c n := by
  simp only [Mm.mapSegmentStreaming]
  by_cases hskip : s.ph.pType ≠ ptLoad ∨ s.ph.pMemsz = 0
  · rw [if_pos hskip]
    exact ⟨S, rfl, h.mono (Nat.le_add_right _ _)⟩
  · obtain ⟨hload, hmem⟩ := not_or.1 hskip
    obtain ⟨hlo, hhi, hend⟩ := hacc (not_not.1 hload) hmem
    have hbase : userCodeBase.toNat = 0x08048000 := rfl
    simp only [Placed.start] at hlo hhi hend hshort h
    rw [if_neg hskip, if_neg, if_neg (by omega), if_neg (by decide)]
    · refine h.segmentPages (userFlags_present _) (userFlags_user _) hd hinv s.file ?_ _ _ _
      intro a ha
      obtain ⟨hge, hlt⟩ := mem_pagesFromTo ha
      rw [toNat_pageAddrMask] at hge hlt
      rw [toNat_ofNat] at hlt
      exact isUser_vpage (by omega) (by omega)
    · rw [BitVec.lt_def, BitVec.le_def]
      omega

/-- By induction on the segments. -/
theorem Room.elfLoadSegments (hd : d ∈ S.dirs) (hinv : Inv (· ≤ ·) S held) (file : List (BitVec 8))
    (base brkEnd : Word) {phs : List Phdr} {n : Nat}
    (hacc : ∀ ph ∈ phs, Placed.Accepted ⟨ph, file, base⟩ ∧
      (ph.pVaddr + base).toNat + ph.pMemsz.toNat ≤ 0xC0000000) (h : Room b S c
      (n + 2 * (phs.flatMap fun ph => segmentRange (ph.pVaddr + base) ph.pMemsz).length)) :
    ∃ S' brkEnd', elfLoadSegments c d file base S (phs.map fun ph => (ph, true)) brkEnd
      = (S', 0, brkEnd') ∧ Room b S' c n := by
  induction phs generalizing S brkEnd with
  | nil => exact ⟨S, brkEnd, rfl, h⟩
  | cons ph phs ih =>
    rw [flatMap_cons, length_append] at h
    obtain ⟨hfirst, hshort⟩ := hacc ph mem_cons_self
    obtain ⟨S1, heq, h1⟩ := Room.mapSegmentStreaming hd hinv hfirst
      hshort (n := n + 2 * (phs.flatMap fun ph => segmentRange (ph.pVaddr + base) ph.pMemsz).length)
      (h.mono (by simp only [Placed.start]; omega))
    obtain ⟨-, -, hinv1, hdirs⟩ := (Twin.refl S).mapSegmentStreaming hinv hd c ph true file base
    simp only [heq] at hinv1 hdirs
    rw [map_cons, elfLoadSegments, heq]
    exact ih (hdirs ▸ hd) hinv1 _ (fun x hx => hacc x (.tail ph hx)) h1

end Mm

/-- A file whose segments can all be reached. -/
def ElfFile.readable (file : List (BitVec 8)) (phs : List Phdr) (entry : Word) : ElfFile :=
  ⟨file, phs.map fun ph => (ph, true), entry⟩

namespace Vm

variable {S : Vm} {d : Frame} {b c : Nat}

/-- The number of frames that loading the segments takes at most. -/
def framesFor (base : Word) (phs : List Phdr) : Nat :=
  2 * (phs.flatMap fun ph => Mm.segmentRange (ph.pVaddr + base) ph.pMemsz).length

/-- With segments that pass the checks, and frames for them, a load succeeds. -/
theorem loadElfProcess_of_room (hinv : Mm.Inv (· ≤ ·) S.mm Mm.noneHeld) (hd : d ∈ S.mm.dirs)
    {file file' : List (BitVec 8)} {phs phs' : List Phdr} {base entry entry' : Word}
    (hacc : ∀ ph ∈ phs, Placed.Accepted ⟨ph, file, base⟩ ∧
      (ph.pVaddr + base).toNat + ph.pMemsz.toNat ≤ 0xC0000000)
    (hacc' : ∀ ph ∈ phs', Placed.Accepted ⟨ph, file', (S.proc d).mmapNext⟩ ∧
      (ph.pVaddr + (S.proc d).mmapNext).toNat + ph.pMemsz.toNat ≤ 0xC0000000)
    (hnext : (S.proc d).mmapNext.toNat + elfInterpReserve ≤ userSpaceEnd.toNat)
    (hentry : 0 ≤ (entry' + (S.proc d).mmapNext).toInt)
    (h : Mm.Room b S.mm c (framesFor (S.proc d).mmapNext phs' + framesFor base phs)) :
    (S.loadElfProcess c d ⟨0, .readable file phs entry, base, none⟩).2 = 0 ∧
      (S.loadElfProcess c d
        ⟨0, .readable file phs entry, base, some (0, 0, .readable file' phs' entry')⟩).2 = 0 := by
  obtain ⟨m, brkEnd, heq, h1⟩ := h.elfLoadSegments hd hinv file base 0 hacc
  obtain ⟨-, -, hinv1, hdirs⟩ := Mm.Twin.elfLoadSegments hd c file base
    (phs.map fun ph => (ph, true)) 0 (Mm.Twin.refl S.mm) hinv
  simp only [heq] at hinv1 hdirs
  obtain ⟨m', brkEnd', heq', -⟩ := Mm.Room.elfLoadSegments (hdirs ▸ hd) hinv1 file'
    (S.proc d).mmapNext 0 hacc' (h1.mono (by rw [zero_add]; exact le_refl _))
  have hpos : ¬ (0 : Int) < 0 := by decide
  have hrc : interpRc 0 (entry' + (S.proc d).mmapNext) = 0 := by
    rw [interpRc, if_neg hpos, min_eq_right hentry]
  simp only [loadElfProcess, ElfFile.readable, heq, if_neg hpos, loadInterpreter, true_and]
  split
  · simp only [setProc, update_self, if_neg (not_lt.2 hnext), heq', hrc]
  · simp only [if_neg (not_lt.2 hnext), setProc, heq', hrc]

end Vm

/-! ## The image of the specification -/

namespace Placed

variable (s : Placed)

/-- The segment is in the memory of `d` as the specification has it: its bytes of the
file, which are there, and zeros up to the end of its memory. -/
def Holds (m : Mm) (d : Frame) : Prop :=
  (∀ k < s.ph.pFilesz.toNat, ∃ x, s.file[s.ph.pOffset.toNat + k]? = some x ∧
    (k < s.ph.pMemsz.toNat → m.userByte d (s.start + ofNat 32 k) = some x)) ∧
  ∀ k, s.ph.pFilesz.toNat ≤ k → k < s.ph.pMemsz.toNat →
    m.userByte d (s.start + ofNat 32 k) = some 0

/-- The file is not shorter than the segment says. -/
def InFile : Prop :=
  s.ph.pFilesz = 0 ∨ s.ph.pOffset.toNat + s.ph.pFilesz.toNat ≤ s.file.length

instance : Decidable s.InFile := inferInstanceAs (Decidable (_ ∨ _))

/-- Where a page of a later segment has a byte of this one, the byte is the same. -/
def Survives (segs : List Placed) : Prop :=
  ∀ k < s.ph.pMemsz.toNat, ∀ t ∈ owner segs (s.start + ofNat 32 k),
    t.byteAt (s.start + ofNat 32 k) = s.byteAt (s.start + ofNat 32 k)

variable {s}

/-- Said for each byte. -/
theorem inFile_iff : s.InFile ↔
    ∀ k < s.ph.pFilesz.toNat, s.ph.pOffset.toNat + k < s.file.length := by
  rw [InFile, ← BitVec.toNat_inj]
  constructor
  · intro h k hk
    rcases h with h | h
    · rw [h] at hk
      exact absurd hk (Nat.not_lt_zero k)
    · omega
  · intro h
    by_cases hzero : s.ph.pFilesz.toNat = 0
    · exact .inl hzero
    · have := h (s.ph.pFilesz.toNat - 1) (by omega)
      exact .inr (by omega)

section

variable (h : s.Accepted) (hload : s.ph.pType = ptLoad)
include h hload

theorem Accepted.toNat_add {k : Nat} (hk : k < s.ph.pMemsz.toNat) :
    (s.start + ofNat 32 k).toNat = s.start.toNat + k ∧
      s.start.toNat + s.ph.pMemsz.toNat + 4095 < 2 ^ 32 := by
  have hmem : s.ph.pMemsz ≠ 0 := by
    intro h0
    rw [h0] at hk
    exact absurd hk (Nat.not_lt_zero k)
  obtain ⟨-, -, hend⟩ := h hload hmem
  refine ⟨?_, hend⟩
  rw [BitVec.toNat_add, toNat_ofNat]
  omega

theorem Accepted.covers {k : Nat}
    (hk : k < s.ph.pMemsz.toNat) : s.Covers (s.start + ofNat 32 k) := by
  obtain ⟨hadd, -⟩ := h.toNat_add hload hk
  refine ⟨hload, ?_, ?_, ?_⟩
  · intro h0
    rw [h0] at hk
    exact absurd hk (Nat.not_lt_zero k)
  · omega
  · rw [endPage]
    omega

theorem Accepted.byteAt {k : Nat}
    (hk : k < s.ph.pMemsz.toNat) : s.byteAt (s.start + ofNat 32 k)
      = streamed s.file s.ph.pOffset.toNat s.ph.pFilesz.toNat k := by
  obtain ⟨hadd, -⟩ := h.toNat_add hload hk
  rw [Placed.byteAt, hadd, if_neg (by omega), Nat.add_sub_cancel_left]

end

/-- Seen through the stream. -/
theorem holds_iff {m : Mm} {d : Frame} : s.Holds m d ↔ s.InFile ∧
    ∀ k < s.ph.pMemsz.toNat, m.userByte d (s.start + ofNat 32 k)
      = some (streamed s.file s.ph.pOffset.toNat s.ph.pFilesz.toNat k) := by
  rw [inFile_iff]
  constructor
  · rintro ⟨hfile, hzero⟩
    refine ⟨fun k hk => ?_, fun k hk => ?_⟩
    · obtain ⟨x, hx, -⟩ := hfile k hk
      exact (List.getElem?_eq_some_iff.1 hx).1
    · by_cases hin : k < s.ph.pFilesz.toNat
      · obtain ⟨x, hx, hbyte⟩ := hfile k hin
        rw [hbyte hk, streamed, if_pos hin, hx]
        rfl
      · rw [hzero k (not_lt.1 hin) hk, streamed, if_neg hin]
  · rintro ⟨hlen, hbytes⟩
    refine ⟨fun k hk => ?_, fun k hk hmem => ?_⟩
    · have hx := getElem?_eq_getElem (hlen k hk)
      refine ⟨_, hx, fun hmem => ?_⟩
      rw [hbytes k hmem, streamed, if_pos hk, hx]
      rfl
    · rw [hbytes k hmem, streamed, if_neg (not_lt.2 hk)]

end Placed

theorem exists_owner {segs : List Placed} {s : Placed} {a : Word} (hs : s ∈ segs)
    (ha : s.Covers a) : ∃ t, owner segs a = some t := by
  have hsome : (segs.reverse.find? fun s => decide (s.Covers a)).isSome :=
    find?_isSome.2 ⟨s, mem_reverse.2 hs, decide_eq_true ha⟩
  exact isSome_iff_exists.1 hsome

/-- A segment survives if every segment that has a page with one of its bytes has the
same byte there, as when no other segment has one of its pages. -/
theorem Placed.survives_of_agree {segs : List Placed} {s : Placed}
    (h : ∀ t ∈ segs, ∀ k < s.ph.pMemsz.toNat, t.Covers (s.start + ofNat 32 k) →
      t.byteAt (s.start + ofNat 32 k) = s.byteAt (s.start + ofNat 32 k)) :
    s.Survives segs := by
  intro k hk t ht
  have hmem : t ∈ segs := mem_reverse.1 (mem_of_find?_eq_some (mem_def.1 ht))
  refine h t hmem k hk ?_
  simpa using find?_some (mem_def.1 ht)

namespace Vm

variable {S : Vm} {d : Frame} {c : Nat} {inp : ElfInput}

/-- The first process loads what passes the checks and fits. -/
theorem firstVm_loads {file : List (BitVec 8)} {phs : List Phdr} {base entry : Word}
    (file' : List (BitVec 8)) (phs' : List Phdr) (entry' : Word)
    (hacc : ∀ ph ∈ phs, Placed.Accepted ⟨ph, file, base⟩ ∧
      (ph.pVaddr + base).toNat + ph.pMemsz.toNat ≤ 0xC0000000)
    (hacc' : ∀ ph ∈ phs', Placed.Accepted ⟨ph, file', newProcMem.mmapNext⟩ ∧
      (ph.pVaddr + newProcMem.mmapNext).toNat + ph.pMemsz.toNat ≤ 0xC0000000)
    (hentry : 0 ≤ (entry' + newProcMem.mmapNext).toInt)
    (hfit : framesFor newProcMem.mmapNext phs' + framesFor base phs ≤ 64) :
    (firstVm.loadElfProcess 0 2816 ⟨0, .readable file phs entry, base, none⟩).2 = 0 ∧
      (firstVm.loadElfProcess 0 2816
        ⟨0, .readable file phs entry, base, some (0, 0, .readable file' phs' entry')⟩).2 = 0 := by
  obtain ⟨m, hfirst, hinv, hd, hroom, -⟩ := firstVm_spec
  have hnext : newProcMem.mmapNext.toNat + elfInterpReserve ≤ userSpaceEnd.toNat := by decide
  rw [hfirst]
  exact loadElfProcess_of_room hinv hd hacc hacc' hnext hentry (hroom.mono hfit)

theorem firstVm_inv : Mm.Inv (· ≤ ·) firstVm.mm Mm.noneHeld ∧ 2816 ∈ firstVm.mm.dirs := by
  obtain ⟨m, hfirst, hinv, hd, -⟩ := firstVm_spec
  rw [hfirst]
  exact ⟨hinv, hd⟩

/-! ## A file with two segments -/

/-- The bytes of a word, the least significant first. -/
def wordBytes (w : Word) : List (BitVec 8) :=
  [w.setWidth 8, (w >>> 8).setWidth 8, (w >>> 16).setWidth 8, (w >>> 24).setWidth 8]

/-- The word at the offset `off` of a file. -/
def fileWord (file : List (BitVec 8)) (off : Nat) : Word :=
  file.getD (off + 3) 0 ++ file.getD (off + 2) 0 ++ file.getD (off + 1) 0 ++ file.getD off 0

/-- The `Elf32_Phdr` at the offset `off`: `p_paddr` and `p_align` are not looked at. -/
def readPhdr (file : List (BitVec 8)) (off : Nat) : Phdr :=
  ⟨fileWord file off, fileWord file (off + 4), fileWord file (off + 8), fileWord file (off + 16),
    fileWord file (off + 20), fileWord file (off + 24)⟩

/-- An `Elf32_Ehdr` of type `ET_EXEC` for the i386, with two program headers behind it. -/
def twoHeader : List (BitVec 8) :=
  [0x7F, 0x45, 0x4C, 0x46, 1, 1, 1, 0, 0, 0, 0, 0, 0, 0, 0, 0, 2, 0, 3, 0] ++
    [1, userCodeBase, 52, 0, 0].flatMap wordBytes ++ [52, 0, 32, 0, 2, 0, 0, 0, 0, 0, 0, 0]

/-- A file of 118 bytes: the header, two program headers, and a byte 0x7F for each of the
segments, which come to `USER_CODE_BASE` and to `second`. -/
def twoFile (second : Word) : List (BitVec 8) :=
  twoHeader ++ [ptLoad, 116, userCodeBase, userCodeBase, 1, 1, 5, 4096].flatMap wordBytes ++
    [ptLoad, 117, second, second, 1, 1, 5, 4096].flatMap wordBytes ++ [0x7F, 0x7F]

/-- Of this file the first `n` bytes, with the program headers that are in it. -/
def twoSegments (second : Word) (n : Nat) : ElfInput :=
  let file := (twoFile second).take n
  ⟨0, .readable file [readPhdr file 52, readPhdr file 84] (fileWord file 24), 0, none⟩

/-- The segment of the byte `k` of such a file, at `addr`. -/
def oneByte (k addr second : Word) (n : Nat) : Placed :=
  ⟨⟨ptLoad, k, addr, 1, 1, 5⟩, (twoFile second).take n, 0⟩

theorem placed_twoPages : firstVm.placed 2816 (twoSegments 0x08049000 118) =
    [oneByte 116 userCodeBase 0x08049000 118, oneByte 117 0x08049000 0x08049000 118] := rfl

end Vm

end UnixOs
