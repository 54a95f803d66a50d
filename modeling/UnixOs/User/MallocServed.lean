import UnixOs.User.Malloc

/-!
# Every sound call of the user heap is served

The invariant has two parts. `Shape` is the geometry: the blocks lie apart, below the
break and clear of what the public `sbrk` gave out. `Inv` adds that the program holds
different blocks in use. Each call has one lemma that says what it does to the shape and
to the blocks in use (`Kept`), and `malloc` in addition what it gives (`Gives`).
-/

namespace UnixOs.UserHeap

open List Machine HeapBlock
open BitVec (ofNat eq_of_toNat_eq le_def)

variable (S : UserHeap)

/-! ## The invariant -/

/-- The blocks lie apart, below the break and clear of what `sbrk` gave the program. -/
structure Shape : Prop where
  apart : S.freeList.Pairwise HeapBlock.Apart
  under : ∀ b ∈ S.freeList, b.stop ≤ S.brk.toNat
  clear : ∀ b ∈ S.freeList, ∀ r ∈ S.taken, b.stop ≤ r.1 ∨ r.2 ≤ b.addr.toNat

/-- The block at `p` is in use and has room for `n` bytes. -/
def Holds (p : Word) (n : Nat) : Prop :=
  ∃ b ∈ S.freeList, b.free = false ∧ p.toNat = b.addr.toNat + 16 ∧ 0 < n ∧ n ≤ b.size.toNat

/-- What the program holds are different blocks in use. -/
structure Inv : Prop extends S.Shape where
  held : ∀ l ∈ S.live, S.Holds l.1 l.2
  distinct : S.live.Pairwise fun k l => k.1 ≠ l.1

variable {S} {b c : HeapBlock}

namespace Shape

section

variable (h : S.Shape) (hb : b ∈ S.freeList)
include h hb

section

variable (hc : c ∈ S.freeList)
include hc

theorem apart_of_ne (hne : b ≠ c) : b.Apart c :=
  h.apart.forall hb hc hne

theorem eq_of_addr (heq : b.addr = c.addr) : b = c := by
  by_contra hne
  have hapart := h.apart_of_ne hb hc hne
  simp only [HeapBlock.Apart, stop, heq] at hapart
  omega

/-- The bytes of a block lie outside every header. -/
theorem outside_header {x : Word}
    (hx : b.Data x) : x.toNat < c.addr.toNat ∨ c.addr.toNat + 16 ≤ x.toNat := by
  obtain ⟨hlo, hhi⟩ := hx
  by_cases heq : b = c
  · exact .inr (heq ▸ hlo)
  · have hapart := h.apart_of_ne hb hc heq
    simp only [HeapBlock.Apart, stop] at hapart hhi
    omega

end

theorem stop_lt : b.stop < 2 ^ 32 :=
  lt_of_le_of_lt (h.under b hb) S.brk.isLt

theorem addr_lt : b.addr.toNat + 16 < 2 ^ 32 := by
  have := h.stop_lt hb
  rw [stop] at this
  omega

theorem toNat_data : (b.addr + headerSize).toNat = b.addr.toNat + 16 :=
  toNat_add_ofNat (i := 16) (h.addr_lt hb)

/-- The header before the data of a block is the block's. -/
theorem header_eq {p : Word} (hp : p.toNat = b.addr.toNat + 16) : S.header p = some b := by
  have haddr : p - headerSize = b.addr := by
    apply eq_of_toNat_eq
    have hsub := BitVec.toNat_sub p headerSize
    have hsize : headerSize.toNat = 16 := rfl
    omega
  rw [header, haddr]
  cases hfind : S.freeList.find? fun c => decide (c.addr = b.addr) with
  | none => exact absurd (find?_eq_none.1 hfind b hb) (by simp)
  | some c =>
    have hc : c.addr = b.addr := by simpa using find?_some hfind
    rw [h.eq_of_addr (mem_of_find?_eq_some hfind) hb hc]

end

/-- The flag is not part of the shape. -/
theorem setFree (h : S.Shape) (a : Word) (v : Bool) : (S.setFree a v).Shape where
  apart := by
    refine pairwise_map.2 (h.apart.imp fun hbc => ?_)
    simpa [HeapBlock.Apart] using hbc
  under := by
    intro b' hb'
    obtain ⟨b, hb, rfl⟩ := mem_map.1 hb'
    rw [stop_mark]
    exact h.under b hb
  clear := by
    intro b' hb' r hr
    obtain ⟨b, hb, rfl⟩ := mem_map.1 hb'
    rw [stop_mark, addr_mark]
    exact h.clear b hb r hr

/-- Storing a `free` field changes no byte of a block. -/
theorem mem_setFree (h : S.Shape) (hb : b ∈ S.freeList) (hc : c ∈ S.freeList) (v : Bool)
    {x : Word} (hx : b.Data x) : (S.setFree c.addr v).mem x = S.mem x :=
  storeWord_of_ne (k := 12) S.mem (by omega) (h.addr_lt hc).le (h.outside_header hb hc hx)

end Shape

/-- The used blocks stay, with their bytes, and the program holds what it held. -/
structure Kept (S S' : UserHeap) : Prop where
  live : S'.live = S.live
  used : ∀ b ∈ S.freeList, b.free = false → b ∈ S'.freeList
  bytes : ∀ b ∈ S.freeList, b.free = false → ∀ x, b.Data x → S'.mem x = S.mem x

theorem Kept.refl (S : UserHeap) : Kept S S :=
  ⟨rfl, fun _ hb _ => hb, fun _ _ _ _ _ => rfl⟩

theorem Kept.inv {S' : UserHeap} (hk : Kept S S') (h : S.Inv) (hs : S'.Shape) : S'.Inv where
  toShape := hs
  held := by
    intro l hl
    rw [hk.live] at hl
    obtain ⟨b, hb, hfree, hrest⟩ := h.held l hl
    exact ⟨b, hk.used b hb hfree, hfree, hrest⟩
  distinct := by
    rw [hk.live]
    exact h.distinct

/-! ## `malloc` -/

theorem opened_eq (S : UserHeap) :
    ∃ s, S.opened = { S with heapStart := s, heapCurrent := S.cached } := by
  rw [cached, opened]
  split
  · exact ⟨S.brk, rfl⟩
  · exact ⟨S.heapStart, rfl⟩

/-- The kernel's answer depends on its own break only. -/
theorem sysBrk_answer {T : UserHeap} (h : T.brk = S.brk) (fr : Frames) (addr : Word) :
    (T.sysBrk fr addr).2 = (S.sysBrk fr addr).2 := by
  unfold sysBrk
  rw [h]
  split
  · rfl
  split
  · rfl
  split
  · rfl
  split
  · cases fr <;> rfl
  · rfl

variable {fr : Frames} {inc : Word}

theorem sbrk_refused (hinc : inc ≠ 0) (hno : (S.sysBrk fr (S.cached + inc)).2 ≠ S.cached + inc) :
    S.sbrk fr inc = (S.opened, -1) := by
  obtain ⟨s, hs⟩ := S.opened_eq
  have hans : (S.opened.sysBrk fr (S.cached + inc)).2 ≠ S.cached + inc := by
    rwa [sysBrk_answer (show S.opened.brk = S.brk by rw [hs])]
  obtain ⟨mem, hmoved, -⟩ | ⟨hsame, -⟩ := S.opened.sysBrk_cases fr (S.cached + inc)
  · rw [hmoved] at hans
    exact absurd rfl hans
  · rw [sbrk, if_neg hinc, ← cached]
    simp only [if_pos hans, hsame]

/-- A break that the kernel accepts is the new end of the heap. -/
theorem sbrk_accepted (hinc : inc ≠ 0) (hyes : (S.sysBrk fr (S.cached + inc)).2 = S.cached + inc)
    (htop : (S.cached + inc).toNat ≤ (UnixOs.heapStart + maxHeapSize).toNat) :
    ∃ s mem, S.sbrk fr inc = ({ S with
        brk := S.cached + inc, heapStart := s, heapCurrent := S.cached + inc, mem }, S.cached) ∧
      ∀ x : Word, x.toNat < S.brk.toNat → mem x = S.mem x := by
  obtain ⟨s, hs⟩ := S.opened_eq
  have hans : (S.opened.sysBrk fr (S.cached + inc)).2 = S.cached + inc := by
    rwa [sysBrk_answer (show S.opened.brk = S.brk by rw [hs])]
  obtain ⟨mem, hmoved, hbelow⟩ | ⟨-, hhigh⟩ := S.opened.sysBrk_cases fr (S.cached + inc)
  · refine ⟨s, mem, ?_, ?_⟩
    · rw [sbrk, if_neg hinc, ← cached, hmoved]
      simp only [ne_eq, not_true_eq_false, if_false, hs]
    · rw [hs] at hbelow
      exact hbelow
  · exact absurd (hhigh hans) (not_lt.2 htop)

variable {a size : Word}

section

variable (h : S.Shape) (habove : S.ClearAbove a) (hbrk : a.toNat + 16 + size.toNat ≤ S.brk.toNat)
include h habove hbrk

/-- A block above everything else is added. -/
theorem Shape.addBlock : (S.addBlock a size).Shape where
  apart := by
    refine pairwise_append.2 ⟨h.apart, pairwise_singleton _ _, ?_⟩
    rintro b hb c hc
    obtain rfl := mem_singleton.1 hc
    exact .inl (habove.1 b hb)
  under := by
    rintro b hb
    obtain hb | hb := mem_append.1 hb
    · exact h.under b hb
    · obtain rfl := mem_singleton.1 hb
      exact hbrk
  clear := by
    rintro b hb r hr
    obtain hb | hb := mem_append.1 hb
    · exact h.clear b hb r hr
    · obtain rfl := mem_singleton.1 hb
      exact .inr (habove.2 r hr)

/-- A header is written outside of the data of the other blocks. -/
theorem Shape.mem_addBlock (hb : b ∈ S.freeList) {x : Word}
    (hx : b.Data x) : (S.addBlock a size).mem x = S.mem x := by
  have ha : a.toNat + 16 ≤ 2 ^ 32 := by
    omega
  have hxa : x.toNat < a.toNat ∨ a.toNat + 16 ≤ x.toNat :=
    .inl (lt_of_lt_of_le hx.2 (habove.1 b hb))
  -- the new header, word by word
  have hnew : ((((S.mem.storeWord a size).storeWord (a + 4) blockMagic).storeWord (a + 8)
      0).storeWord (a + 12) 0) x = S.mem x := by
    refine (storeWord_of_ne (k := 12) _ (by omega) ha hxa).trans ?_
    refine (storeWord_of_ne (k := 8) _ (by omega) ha hxa).trans ?_
    refine (storeWord_of_ne (k := 4) _ (by omega) ha hxa).trans ?_
    have hzero := storeWord_of_ne (w := size) (k := 0) S.mem (by omega) ha hxa
    rwa [BitVec.add_zero] at hzero
  rw [UserHeap.addBlock]
  cases hlast : S.freeList.getLast? with
  | none => exact hnew
  | some prev =>
    have hprev := mem_of_getLast? hlast
    exact (storeWord_of_ne (k := 8) _ (by omega) (h.addr_lt hprev).le
      (h.outside_header hb hprev hx)).trans hnew

end

/-- `p` is null, or the data of a block with room for `n` bytes that was not in use. -/
def Gives (S S' : UserHeap) (p : Word) (n : Nat) : Prop :=
  p = 0 ∨ ∃ b ∈ S'.freeList, b.free = false ∧ p.toNat = b.addr.toNat + 16 ∧ 0 < n ∧
    n ≤ b.size.toNat ∧ ∀ c ∈ S.freeList, c.free = false → c.addr ≠ b.addr

/-- The heap keeps its shape, what is in use stays as it is, and the answer is null or a block
that was not in use. -/
structure Serves (S : UserHeap) (out : UserHeap × Word) (n : Nat) : Prop where
  shape : out.1.Shape
  kept : Kept S out.1
  gives : Gives S out.1 out.2 n

/-- A free block is reused. -/
theorem malloc_reuse (h : S.Shape) (hsize : size ≠ 0)
    (hn : size.toNat + 7 < 2 ^ 32) (hfit : S.firstFit (align size) = some b) :
    Serves S (S.malloc fr size) size.toNat := by
  have hb : b ∈ S.freeList := mem_of_find?_eq_some hfit
  obtain ⟨hfree, hlarge⟩ : b.free = true ∧ align size ≤ b.size := by
    simpa using find?_some hfit
  have hother : ∀ c ∈ S.freeList, c.free = false → c.addr ≠ b.addr := by
    intro c hc hused heq
    rw [h.eq_of_addr hc hb heq, hfree] at hused
    cases hused
  have hmalloc : S.malloc fr size = (S.setFree b.addr false, b.addr + headerSize) := by
    rw [malloc, if_neg hsize, hfit]
  rw [hmalloc]
  refine ⟨h.setFree _ _, ⟨rfl, ?_, ?_⟩, .inr ⟨{ b with free := false }, ?_, rfl, ?_⟩⟩
  · intro c hc hused
    exact mem_map.2 ⟨c, hc, mark_of_ne (hother c hc hused) false⟩
  · exact fun c hc _ x hx => h.mem_setFree hc hb false hx
  · exact mem_map.2 ⟨b, hb, b.mark_self false⟩
  · refine ⟨h.toNat_data hb, ?_, ?_, hother⟩
    · exact Nat.pos_of_ne_zero fun h0 => hsize (eq_of_toNat_eq h0)
    · have hle := le_def.1 hlarge
      rw [toNat_align hn] at hle
      show size.toNat ≤ b.size.toNat
      omega

/-- A request that finds no block and no room for a new one changes nothing. -/
theorem malloc_refused (h : S.Shape) (hsize : size ≠ 0) (href : S.Refused fr size) (n : Nat) :
    Serves S (S.malloc fr size) n := by
  obtain ⟨hnone, hinc, hno⟩ := href
  have hmalloc : S.malloc fr size = (S.opened, 0) := by
    rw [malloc, if_neg hsize, hnone]
    simp only [sbrk_refused hinc hno, if_true]
  obtain ⟨s, hs⟩ := S.opened_eq
  rw [hmalloc, hs]
  exact ⟨⟨h.apart, h.under, h.clear⟩, ⟨rfl, fun _ hb _ => hb, fun _ _ _ _ _ => rfl⟩, .inl rfl⟩

section

variable (htop : a.toNat + (align size).toNat + 16 ≤ (UnixOs.heapStart + maxHeapSize).toNat)
include htop

theorem toNat_total : (align size + headerSize).toNat = (align size).toNat + 16 := by
  exact toNat_add_ofNat (i := 16) (by omega)

theorem total_ne_zero : align size + headerSize ≠ 0 := by
  intro h0
  have : (align size + headerSize).toNat = 0 := congrArg BitVec.toNat h0
  rw [toNat_total htop] at this
  omega

end

/-- The break is moved up for a new block. -/
theorem malloc_grow (h : S.Shape) (hsize : size ≠ 0)
    (hn : size.toNat + 7 < 2 ^ 32) (hnone : S.firstFit (align size) = none)
    (hyes : (S.sysBrk fr (S.cached + (align size + headerSize))).2
      = S.cached + (align size + headerSize))
    (htop : S.cached.toNat + (align size).toNat + 16 ≤ (UnixOs.heapStart + maxHeapSize).toNat)
    (habove : S.ClearAbove S.cached) : Serves S (S.malloc fr size) size.toNat := by
  have hhead : headerSize.toNat = 16 := rfl
  have htotal := toNat_total htop
  have hnew : (S.cached + (align size + headerSize)).toNat
      = S.cached.toNat + (align size).toNat + 16 := by
    rw [BitVec.toNat_add]
    omega
  have hinc : align size + headerSize ≠ 0 := total_ne_zero htop
  obtain ⟨s, mem, hsbrk, hbelow⟩ := sbrk_accepted hinc hyes (by omega)
  have hcached : S.cached ≠ -1 := by
    intro heq
    have : S.cached.toNat = 4294967295 := congrArg BitVec.toNat heq
    omega
  -- the state between `sbrk` and the new header
  generalize hT : ({ S with
    brk := S.cached + (align size + headerSize), heapStart := s,
    heapCurrent := S.cached + (align size + headerSize), mem } : UserHeap) = T at hsbrk
  have hshape : T.Shape := by
    subst hT
    refine ⟨h.apart, fun b hb => ?_, h.clear⟩
    have := habove.1 b hb
    show b.stop ≤ (S.cached + (align size + headerSize)).toNat
    omega
  have hTabove : T.ClearAbove S.cached := by
    subst hT
    exact habove
  have hTbrk : S.cached.toNat + 16 + (align size).toNat ≤ T.brk.toNat := by
    subst hT
    show _ ≤ (S.cached + (align size + headerSize)).toNat
    omega
  have hlist : T.freeList = S.freeList := by
    subst hT
    rfl
  have hmalloc : S.malloc fr size
      = (T.addBlock S.cached (align size), S.cached + headerSize) := by
    rw [malloc, if_neg hsize, hnone]
    simp only [hsbrk, if_neg hcached]
  rw [hmalloc]
  refine ⟨hshape.addBlock hTabove hTbrk, ⟨?_, ?_, ?_⟩,
    .inr ⟨⟨S.cached, align size, false⟩, ?_, rfl, ?_⟩⟩
  · subst hT
    rfl
  · intro b hb _
    exact mem_append_left _ (hlist ▸ hb)
  · intro b hb _ x hx
    rw [hshape.mem_addBlock hTabove hTbrk (hlist ▸ hb) hx]
    subst hT
    exact hbelow x (lt_of_lt_of_le hx.2 (h.under b hb))
  · exact mem_append_right _ (mem_singleton.2 rfl)
  · refine ⟨?_, ?_, ?_, ?_⟩
    · show (S.cached + headerSize).toNat = S.cached.toNat + 16
      rw [BitVec.toNat_add]
      omega
    · exact Nat.pos_of_ne_zero fun h0 => hsize (eq_of_toNat_eq h0)
    · show size.toNat ≤ (align size).toNat
      rw [toNat_align hn]
      omega
    · intro c hc _ heq
      have hstop := habove.1 c hc
      rw [stop, heq] at hstop
      simp only at hstop
      omega

/-- `malloc` under its condition. -/
theorem malloc_spec {n : Nat} (h : S.Shape) (hf : S.Fits fr n size) :
    Serves S (S.malloc fr size) n := by
  obtain rfl | hsize := eq_or_ne size 0
  · exact ⟨h, Kept.refl S, .inl rfl⟩
  obtain hzero | href | ⟨rfl, hn, hroom⟩ := hf
  · exact absurd hzero hsize
  · exact malloc_refused h hsize href n
  · cases hfit : S.firstFit (align size) with
    | some b => exact malloc_reuse h hsize hn hfit
    | none =>
      obtain hsome | ⟨htop, habove⟩ := hroom
      · rw [hfit] at hsome
        cases hsome
      have hinc : align size + headerSize ≠ 0 := total_ne_zero htop
      by_cases hyes : (S.sysBrk fr (S.cached + (align size + headerSize))).2
          = S.cached + (align size + headerSize)
      · exact malloc_grow h hsize hn hfit hyes htop habove
      · exact malloc_refused h hsize ⟨hfit, hinc, hyes⟩ _

/-! ## What the program holds -/

/-- The invariant places every block of a user. -/
theorem Inv.placed (h : S.Inv) : S.Placed where
  apart := by
    refine h.distinct.imp_of_mem fun {k l} hk hl hne => ?_
    obtain ⟨b, hb, -, hkb, -, hkn⟩ := h.held k hk
    obtain ⟨c, hc, -, hlc, -, hln⟩ := h.held l hl
    have hbc : b ≠ c := by
      rintro rfl
      exact hne (eq_of_toNat_eq (hkb.trans hlc.symm))
    have hapart := h.apart_of_ne hb hc hbc
    simp only [HeapBlock.Apart, stop] at hapart
    omega
  clear := by
    intro l hl r hr
    obtain ⟨b, hb, -, hlb, -, hln⟩ := h.held l hl
    have hclear := h.clear b hb r hr
    rw [stop] at hclear
    omega
  inside := by
    intro l hl
    obtain ⟨b, hb, -, hlb, -, hln⟩ := h.held l hl
    have hunder := h.under b hb
    rw [stop] at hunder
    omega
  large := by
    intro l hl
    obtain ⟨b, hb, -, hlb, -, hln⟩ := h.held l hl
    exact ⟨b, hb, eq_of_toNat_eq ((h.toNat_data hb).trans hlb.symm), hln⟩

/-- The bytes of a block, counted from its data. -/
theorem Shape.data_at (h : S.Shape) (hb : b ∈ S.freeList) {p : Word}
    (hp : p.toNat = b.addr.toNat + 16) {i : Nat} (hi : i < b.size.toNat) :
    b.Data (p + ofNat 32 i) := by
  have hstop := h.stop_lt hb
  rw [stop] at hstop
  rw [HeapBlock.Data, stop, toNat_add_ofNat (by omega)]
  omega

variable {S' : UserHeap} {p : Word} {n : Nat}

theorem Kept.intact (hk : Kept S S') (h : S.Inv) (q : Word) : S.Intact S' q := by
  intro l hl _
  obtain ⟨b, hb, hused, hlb, -, hln⟩ := h.held l hl
  refine ⟨hk.live ▸ hl, fun i hi => ?_⟩
  exact hk.bytes b hb hused _ (h.data_at hb hlb (lt_of_lt_of_le hi hln))

theorem ne_zero_of_data {p : Word} (hp : p.toNat = b.addr.toNat + 16) : p ≠ 0 := by
  rintro rfl
  change 0 = b.addr.toNat + 16 at hp
  omega

theorem Inv.ne_zero (h : S.Inv) : ∀ l ∈ S.live, l.1 ≠ 0 := by
  intro l hl
  obtain ⟨b, -, -, hlb, -⟩ := h.held l hl
  exact ne_zero_of_data hlb

theorem Inv.grant (h : S.Inv) (hp : S.Holds p n) (hnew : ∀ l ∈ S.live, l.1 ≠ p) :
    (S.grant p n).Inv := by
  rw [UserHeap.grant]
  split
  · exact h
  refine ⟨⟨h.apart, h.under, h.clear⟩, ?_, pairwise_cons.2 ⟨?_, h.distinct⟩⟩
  · rintro l hl
    obtain rfl | hl := mem_cons.1 hl
    · exact hp
    · exact h.held l hl
  · exact fun l hl heq => hnew l hl heq.symm

theorem Intact.grant {q : Word} (hi : S.Intact S' q) (p : Word) (n : Nat) :
    S.Intact (S'.grant p n) q := by
  intro l hl hq
  obtain ⟨hmem, hbytes⟩ := hi l hl hq
  rw [UserHeap.grant]
  split
  · exact ⟨hmem, hbytes⟩
  · exact ⟨.tail _ hmem, hbytes⟩

theorem mem_live_grant (hp : p ≠ 0) : (p, n) ∈ (S.grant p n).live := by
  rw [UserHeap.grant, if_neg hp]
  exact mem_cons_self

section

variable (hg : Gives S S' p n)
include hg

/-- What `malloc` gives is not held yet. -/
theorem Gives.fresh (hp : p ≠ 0) (h : S.Inv) : ∀ l ∈ S.live, l.1 ≠ p := by
  rintro l hl rfl
  obtain h0 | ⟨b, -, -, hpb, -, -, hother⟩ := hg
  · exact hp h0
  obtain ⟨c, hc, hused, hlc, -⟩ := h.held l hl
  exact hother c hc hused (eq_of_toNat_eq (by omega))

theorem Gives.holds (hp : p ≠ 0) : S'.Holds p n := by
  obtain h0 | ⟨b, hb, hused, hpb, hpos, hle, -⟩ := hg
  · exact absurd h0 hp
  · exact ⟨b, hb, hused, hpb, hpos, hle⟩

/-- The program gets the block it was given. -/
theorem Gives.inv_grant (hk : Kept S S') (h : S.Inv) (hs : S'.Shape) : (S'.grant p n).Inv := by
  by_cases hp : p = 0
  · rw [UserHeap.grant, if_pos hp]
    exact hk.inv h hs
  · exact (hk.inv h hs).grant (hg.holds hp) (hk.live ▸ hg.fresh hp h)

end

/-- Filling a block that was not in use changes nothing that was. -/
theorem Kept.fill (hk : Kept S S') (hs : S'.Shape) (hb : b ∈ S'.freeList)
    (hother : ∀ c ∈ S.freeList, c.free = false → c.addr ≠ b.addr)
    (hp : p.toNat = b.addr.toNat + 16) {m : Nat} (hm : m ≤ b.size.toNat)
    (v : Bytes32 → Word → BitVec 8) :
    Kept S { S' with mem := .storeLoop p v m S'.mem } where
  live := hk.live
  used := hk.used
  bytes := by
    intro c hc hused x hx
    have hstop := hs.stop_lt hb
    have hapart := hs.apart_of_ne (hk.used c hc hused) hb fun heq => hother c hc hused (heq ▸ rfl)
    simp only [HeapBlock.Apart, stop, HeapBlock.Data] at hapart hstop hx
    rw [← hk.bytes c hc hused x hx]
    exact storeLoop_of_ne (by omega) (by omega)

/-! ## The calls -/

theorem served_malloc (h : S.Inv) {fr : Frames} (hf : S.Fits fr size.toNat size) :
    (S.step (.malloc fr size)).Inv ∧ S.Served (.malloc fr size) := by
  obtain ⟨hs, hk, hg⟩ := malloc_spec h.toShape hf
  have hinv := hg.inv_grant hk h hs
  exact ⟨hinv, hinv.placed, (hk.intact h 0).grant _ _, mem_live_grant⟩

/-- The block of a `calloc` is cleared. -/
theorem served_calloc (h : S.Inv) {fr : Frames} {nmemb size : Word}
    (hf : S.Fits fr (nmemb.toNat * size.toNat) (nmemb * size)) :
    (S.step (.calloc fr nmemb size)).Inv ∧ S.Served (.calloc fr nmemb size) := by
  obtain ⟨hs, hk, hg⟩ := malloc_spec h.toShape hf
  have hcalloc : Serves S (S.calloc fr nmemb size) (nmemb.toNat * size.toNat) := by
    rw [calloc]
    generalize S.malloc fr (nmemb * size) = r at hs hk hg
    obtain ⟨T, p⟩ := r
    obtain rfl | ⟨b, hb, hused, hpb, hpos, hle, hother⟩ := hg
    · exact ⟨hs, hk, .inl rfl⟩
    have hp := ne_zero_of_data hpb
    simp only [if_neg hp]
    have hm : (nmemb * size).toNat ≤ b.size.toNat := by
      exact (Nat.mod_le _ _).trans hle
    exact ⟨⟨hs.apart, hs.under, hs.clear⟩, hk.fill hs hb hother hpb hm _,
      .inr ⟨b, hb, hused, hpb, hpos, hle, hother⟩⟩
  obtain ⟨hs, hk, hg⟩ := hcalloc
  have hinv := hg.inv_grant hk h hs
  exact ⟨hinv, hinv.placed, (hk.intact h 0).grant _ _, mem_live_grant⟩

variable (h : S.Inv) (hb : b ∈ S.freeList) (hp : p.toNat = b.addr.toNat + 16)

include h hb hp in
/-- A held block is freed. -/
theorem Inv.free_eq : S.free p = S.setFree b.addr true := by
  have hne := ne_zero_of_data hp
  rw [free, if_neg hne, h.header_eq hb hp]

theorem mem_forgo {l : Word × Nat} : l ∈ (S.forgo p).live ↔ l ∈ S.live ∧ l.1 ≠ p := by simp [forgo]

include h hb hp in
theorem Inv.forgo_free : ((S.free p).forgo p).Inv := by
  rw [h.free_eq hb hp]
  have hs := h.toShape.setFree b.addr true
  refine ⟨⟨hs.apart, hs.under, hs.clear⟩, ?_, h.distinct.filter _⟩
  intro l hl
  obtain ⟨hl, hne⟩ := mem_forgo.1 hl
  obtain ⟨c, hc, hused, hlc, hrest⟩ := h.held l hl
  have hcb : c.addr ≠ b.addr := by
    intro heq
    exact hne (eq_of_toNat_eq (by rw [hlc, hp, heq]))
  exact ⟨c, mem_map.2 ⟨c, hc, mark_of_ne hcb true⟩, hused, hlc, hrest⟩

include h hb hp in
theorem Inv.intact_free : S.Intact ((S.free p).forgo p) p := by
  rw [h.free_eq hb hp]
  intro l hl hne
  obtain ⟨c, hc, -, hlc, -, hln⟩ := h.held l hl
  refine ⟨mem_forgo.2 ⟨hl, hne⟩, fun i hi => ?_⟩
  exact h.mem_setFree hc hb true (h.data_at hc hlc (lt_of_lt_of_le hi hln))

theorem forgo_of_not_held (hp : ∀ l ∈ S.live, l.1 ≠ p) : S.forgo p = S := by
  rw [forgo, filter_eq_self.2 fun l hl => decide_eq_true (hp l hl)]

theorem served_free (h : S.Inv) (hl : S.Legal (.free p)) :
    (S.step (.free p)).Inv ∧ S.Served (.free p) := by
  have hboth : (S.step (.free p)).Inv ∧ S.Intact (S.step (.free p)) p := by
    obtain rfl | ⟨n, hn⟩ := hl
    · have hsame : S.step (.free 0) = S := forgo_of_not_held h.ne_zero
      rw [hsame]
      exact ⟨h, (Kept.refl S).intact h 0⟩
    · obtain ⟨b, hb, -, hpb, -⟩ := h.held _ hn
      exact ⟨h.forgo_free hb hpb, h.intact_free hb hpb⟩
  exact ⟨hboth.1, hboth.1.placed, hboth.2⟩

/-- What `realloc` owes for a block that the program holds. -/
def Resized (S S' : UserHeap) (p new size : Word) : Prop :=
  S.Intact S' p ∧ (size ≠ 0 → new = 0 → S.Intact S' 0) ∧
    (new ≠ 0 → (new, size.toNat) ∈ S'.live ∧
      ∀ n, (p, n) ∈ S.live → ∀ i < min n size.toNat,
        S'.mem (new + ofNat 32 i) = S.mem (p + ofNat 32 i))

/-- A block that is large enough stays where it is. -/
theorem resized_inPlace (h : S.Inv) (hsize : size ≠ 0) (hb : b ∈ S.freeList)
    (hused : b.free = false) (hp : p.toNat = b.addr.toNat + 16) (hle : size ≤ b.size) :
    ((S.forgo p).grant p size.toNat).Inv ∧ Resized S ((S.forgo p).grant p size.toNat) p p size := by
  have hne := ne_zero_of_data hp
  have hpos : 0 < size.toNat := Nat.pos_of_ne_zero fun h0 => hsize (eq_of_toNat_eq h0)
  have hforgo : (S.forgo p).Inv :=
    ⟨⟨h.apart, h.under, h.clear⟩, fun l hl => h.held l (mem_forgo.1 hl).1, h.distinct.filter _⟩
  have hintact : S.Intact (S.forgo p) p := fun l hl hq => ⟨mem_forgo.2 ⟨hl, hq⟩, fun _ _ => rfl⟩
  refine ⟨hforgo.grant ⟨b, hb, hused, hp, hpos, le_def.1 hle⟩ fun l hl => (mem_forgo.1 hl).2,
    hintact.grant _ _, fun _ h0 => absurd h0 hne, fun _ => ⟨mem_live_grant hne, fun n _ i _ => ?_⟩⟩
  rw [UserHeap.grant, if_neg hne]
  rfl

/-- A block is copied to a larger one and freed. -/
theorem resized_moved {size new : Word} (h : S.Inv) (hb : b ∈ S.freeList) (hused : b.free = false)
    (hp : p.toNat = b.addr.toNat + 16) (hlt : b.size.toNat < size.toNat) (hs : S'.Shape)
    (hk : Kept S S') (hg : Gives S S' new size.toNat) (hnew : new ≠ 0) :
    let T : UserHeap :=
      { S' with mem := .storeLoop new (fun mem i => mem (p + i)) b.size.toNat S'.mem }
    (((T.free p).forgo p).grant new size.toNat).Inv ∧
      Resized S (((T.free p).forgo p).grant new size.toNat) p new size := by
  intro T
  have hfresh := hg.fresh hnew h
  obtain h0 | ⟨c, hc, hcused, hnc, hpos, hle, hother⟩ := hg
  · exact absurd h0 hnew
  have hcb : c.addr ≠ b.addr := fun heq => hother b hb hused heq.symm
  have hT : Kept S T := hk.fill hs hc hother hnc (by omega) _
  have hinv : T.Inv := hT.inv h ⟨hs.apart, hs.under, hs.clear⟩
  have hbT : b ∈ T.freeList := hT.used b hb hused
  have hcT : c ∈ (T.free p).freeList := by
    rw [hinv.free_eq hbT hp]
    exact mem_map.2 ⟨c, hc, mark_of_ne hcb true⟩
  have hnot : ∀ l ∈ ((T.free p).forgo p).live, l.1 ≠ new := by
    intro l hl
    have hl := (mem_forgo.1 hl).1
    rw [hinv.free_eq hbT hp] at hl
    exact hfresh l (hT.live ▸ hl)
  have hintact : S.Intact ((T.free p).forgo p) p := by
    intro l hl hq
    obtain ⟨hmem, hbytes⟩ := hT.intact h p l hl hq
    obtain ⟨hmem', hbytes'⟩ := hinv.intact_free hbT hp l hmem hq
    exact ⟨hmem', fun i hi => (hbytes' i hi).trans (hbytes i hi)⟩
  refine ⟨(hinv.forgo_free hbT hp).grant ⟨c, hcT, hcused, hnc, hpos, hle⟩ hnot,
    hintact.grant _ _, fun _ h0 => absurd h0 hnew, fun _ => ⟨mem_live_grant hnew, ?_⟩⟩
  intro n hn i hi
  -- the program asked for no more than the block has
  have hnb : n ≤ b.size.toNat := by
    obtain ⟨d, hd, -, hpd, -, hnd⟩ := h.held _ hn
    have hdb : d = b := h.eq_of_addr hd hb (eq_of_toNat_eq (by
      simp only at hpd
      omega))
    exact hdb ▸ hnd
  have hib : i < b.size.toNat := lt_of_lt_of_le (lt_of_lt_of_le hi (min_le_left _ _)) hnb
  have hcstop := hs.stop_lt hc
  have hbstop := h.stop_lt hb
  have hapart := hs.apart_of_ne (hk.used b hb hused) hc fun heq => hcb (heq ▸ rfl)
  simp only [HeapBlock.Apart, stop] at hapart hcstop hbstop
  rw [UserHeap.grant, if_neg hnew]
  calc ((T.free p).forgo p).mem (new + ofNat 32 i)
      = T.mem (new + ofNat 32 i) := by
        rw [hinv.free_eq hbT hp]
        exact hinv.mem_setFree hc hbT true (hs.data_at hc hnc (by omega))
    _ = S'.mem (p + ofNat 32 i) := copy_get (by omega) (by omega) (by omega) hib
    _ = S.mem (p + ofNat 32 i) := hk.bytes b hb hused _ (h.data_at hb hp hib)

/-- A null pointer, size 0, a block that is large enough, and one that is moved with its data. -/
theorem served_realloc (h : S.Inv) {fr : Frames} (hl : S.Legal (.realloc fr p size))
    (hsound : S.Sound (.realloc fr p size)) :
    (S.step (.realloc fr p size)).Inv ∧ S.Served (.realloc fr p size) := by
  suffices hboth : (S.step (.realloc fr p size)).Inv ∧
      Resized S (S.step (.realloc fr p size)) p (S.realloc fr p size).2 size from
    ⟨hboth.1, hboth.1.placed, hboth.2⟩
  rw [step]
  obtain rfl | ⟨n, hn⟩ := hl
  · -- a null pointer: `malloc`
    obtain ⟨_, hne, -⟩ | hf := hsound
    · exact absurd rfl hne
    obtain ⟨hs, hk, hg⟩ := malloc_spec h.toShape hf
    rw [show S.realloc fr 0 size = S.malloc fr size from if_pos rfl]
    generalize S.malloc fr size = r at hs hk hg
    have hforgo : r.1.forgo 0 = r.1 := forgo_of_not_held (hk.live ▸ h.ne_zero)
    have hgrant : (if r.2 = 0 ∧ size ≠ 0 then r.1 else (r.1.forgo 0).grant r.2 size.toNat)
        = r.1.grant r.2 size.toNat := by
      rw [hforgo]
      split
      · next h0 => rw [UserHeap.grant, if_pos h0.1]
      · rfl
    rw [hgrant]
    have hintact := (hk.intact h 0).grant r.2 size.toNat
    refine ⟨hg.inv_grant hk h hs, hintact, fun _ _ => hintact, fun hp => ⟨mem_live_grant hp, ?_⟩⟩
    exact fun n hn => absurd rfl (h.ne_zero _ hn)
  obtain ⟨b, hb, hused, hpb, -⟩ := h.held _ hn
  have hp : p ≠ 0 := h.ne_zero _ hn
  obtain rfl | hsize := eq_or_ne size 0
  · -- size 0: `free`
    have hrealloc : S.realloc fr p 0 = (S.free p, 0) := by rw [realloc, if_neg hp, if_pos rfl]
    rw [hrealloc]
    exact ⟨h.forgo_free hb hpb, h.intact_free hb hpb, (absurd rfl),
      absurd rfl⟩
  have hheader := h.header_eq hb hpb
  by_cases hle : size ≤ b.size
  · have hrealloc : S.realloc fr p size = (S, p) := by
      rw [realloc, if_neg hp, if_neg hsize, hheader]
      exact if_pos hle
    rw [hrealloc, if_neg fun h0 => hp h0.1]
    exact resized_inPlace h hsize hb hused hpb hle
  have hf : S.Fits fr size.toNat size := by
    obtain ⟨c, -, hc, hle'⟩ | hf := hsound
    · rw [hheader] at hc
      cases hc
      exact absurd hle' hle
    · exact hf
  obtain ⟨hs, hk, hg⟩ := malloc_spec h.toShape hf
  have hrealloc : S.realloc fr p size =
      if (S.malloc fr size).2 = 0 then ((S.malloc fr size).1, 0)
      else (({ (S.malloc fr size).1 with
        mem := .storeLoop (S.malloc fr size).2 (fun mem i => mem (p + i)) b.size.toNat
          (S.malloc fr size).1.mem } : UserHeap).free p, (S.malloc fr size).2) := by
    rw [realloc, if_neg hp, if_neg hsize, hheader]
    exact if_neg hle
  rw [hrealloc]
  generalize S.malloc fr size = r at hs hk hg
  by_cases hnew : r.2 = 0
  · rw [if_pos hnew, if_pos ⟨rfl, hsize⟩]
    exact ⟨hk.inv h hs, hk.intact h p, fun _ _ => hk.intact h 0, (absurd rfl)⟩
  · rw [if_neg hnew, if_neg fun h0 => hnew h0.1]
    refine resized_moved h hb hused hpb ?_ hs hk hg hnew
    rw [le_def] at hle
    omega

/-! ## The public `sbrk` -/

theorem Kept.took (hk : Kept S S') (old increment : Word) : Kept S (S'.took old increment) := by
  rw [UserHeap.took]
  split
  · exact ⟨hk.live, hk.used, hk.bytes⟩
  split
  · exact ⟨hk.live, hk.used, hk.bytes⟩
  · exact hk

/-- What `sbrk` hands out or takes back has no block in it. -/
theorem Shape.took {old increment : Word} (h : S.Shape)
    (habove : increment = 0 ∨ ∀ b ∈ S.freeList, b.stop ≤ old.toNat) :
    (S.took old increment).Shape := by
  rw [UserHeap.took]
  split
  · next hpos =>
    obtain rfl | habove := habove
    · exact absurd hpos (by decide)
    refine ⟨h.apart, h.under, fun b hb r hr => ?_⟩
    obtain rfl | hr := mem_cons.1 hr
    · exact .inl (habove b hb)
    · exact h.clear b hb r hr
  split
  · refine ⟨h.apart, h.under, fun b hb r hr => ?_⟩
    obtain ⟨q, hq, rfl⟩ := mem_map.1 hr
    have := h.clear b hb q hq
    omega
  · exact h

/-- The public `sbrk` under its condition. -/
theorem publicSbrk_spec (h : S.Shape) {fr : Frames} {inc : Word} (hm : S.Moves fr inc) :
    (S.publicSbrk fr inc).1.Shape ∧ Kept S (S.publicSbrk fr inc).1 ∧
      ((S.publicSbrk fr inc).2 = -1 ∨ inc = 0 ∨
        ∀ b ∈ (S.publicSbrk fr inc).1.freeList, b.stop ≤ (S.publicSbrk fr inc).2.toNat) := by
  have hkept : ∀ a, Kept S { S with brkCurrent := a } :=
    fun _ => ⟨rfl, fun _ hb _ => hb, fun _ _ _ _ _ => rfl⟩
  have hshape : ∀ a, ({ S with brkCurrent := a } : UserHeap).Shape :=
    fun _ => ⟨h.apart, h.under, h.clear⟩
  obtain rfl | hinc := eq_or_ne inc 0
  · exact ⟨hshape _, hkept _, .inr (.inl rfl)⟩
  have hans := sysBrk_answer (show ({ S with brkCurrent := S.publicCached } : UserHeap).brk
    = S.brk from rfl) fr (S.publicCached + inc)
  have hsteps := sysBrk_cases { S with brkCurrent := S.publicCached } fr (S.publicCached + inc)
  have hroom : (S.sysBrk fr (S.publicCached + inc)).2 = S.publicCached + inc →
      ∀ b ∈ S.freeList, b.stop ≤ S.publicCached.toNat ∧ b.stop ≤ (S.publicCached + inc).toNat := by
    intro hyes
    obtain h0 | hno | hall := hm
    · exact absurd h0 hinc
    · exact absurd hyes hno
    · exact hall
  rw [publicSbrk, if_neg hinc]
  generalize ({ S with brkCurrent := S.publicCached } : UserHeap).sysBrk fr
    (S.publicCached + inc) = r at hans hsteps
  obtain ⟨T, a⟩ := r
  by_cases hyes : a = S.publicCached + inc
  · have hall := hroom (hans ▸ hyes)
    simp only [hyes, ne_eq, not_true_eq_false, if_false]
    obtain ⟨mem, hmoved, hbelow⟩ | ⟨hsame, -⟩ := hsteps
    · cases hmoved
      refine ⟨⟨h.apart, fun b hb => (hall b hb).2, h.clear⟩, ⟨rfl, fun _ hb _ => hb, ?_⟩,
        .inr (.inr fun b hb => (hall b hb).1)⟩
      exact fun b hb _ x hx => hbelow x (lt_of_lt_of_le hx.2 (h.under b hb))
    · obtain rfl : T = _ := hsame
      exact ⟨hshape _, hkept _, .inr (.inr fun b hb => (hall b hb).1)⟩
  · simp only [ne_eq, hyes, not_false_eq_true, if_true]
    obtain ⟨mem, hmoved, -⟩ | ⟨hsame, -⟩ := hsteps
    · exact absurd (Prod.mk.inj hmoved).2 hyes
    · obtain rfl : T = _ := hsame
      exact ⟨hshape _, hkept _, .inl trivial⟩

theorem served_sbrk (h : S.Inv) {fr : Frames} {inc : Word} (hm : S.Moves fr inc) :
    (S.step (.sbrk fr inc)).Inv ∧ S.Served (.sbrk fr inc) := by
  suffices hboth : (S.step (.sbrk fr inc)).Shape ∧ Kept S (S.step (.sbrk fr inc)) by
    have hinv := hboth.2.inv h hboth.1
    exact ⟨hinv, hinv.placed, hboth.2.intact h 0⟩
  obtain ⟨hs, hk, habove⟩ := publicSbrk_spec h.toShape hm
  rw [step]
  generalize S.publicSbrk fr inc = r at hs hk habove
  show (if r.2 = -1 then r.1 else r.1.took r.2 inc).Shape ∧
    Kept S (if r.2 = -1 then r.1 else r.1.took r.2 inc)
  split
  · exact ⟨hs, hk⟩
  · next hret => exact ⟨hs.took (habove.resolve_left hret), hk.took _ _⟩

/-! ## Runs -/

/-- One call of the program keeps the invariant and serves it. -/
theorem Inv.step (h : S.Inv) {op : HeapOp} (hl : S.Legal op) (hs : S.Sound op) :
    (S.step op).Inv ∧ S.Served op := by
  cases op with
  | malloc fr size => exact served_malloc h hs
  | calloc fr nmemb size => exact served_calloc h hs
  | realloc fr ptr size => exact served_realloc h hl hs
  | free ptr => exact served_free h hl
  | sbrk fr increment => exact served_sbrk h hs
  | write a v =>
    have hinv : (S.step (.write a v)).Inv := ⟨⟨h.apart, h.under, h.clear⟩, h.held, h.distinct⟩
    exact ⟨hinv, hinv.placed, trivial⟩

/-- A program before its first call. -/
structure Fresh (S : UserHeap) : Prop where
  heapStart : S.heapStart = 0
  brkCurrent : S.brkCurrent = 0
  freeList : S.freeList = []
  live : S.live = []
  taken : S.taken = []

theorem Fresh.inv (h : S.Fresh) : S.Inv := by
  refine ⟨⟨?_, ?_, ?_⟩, ?_, ?_⟩
  · rw [h.freeList]
    exact List.Pairwise.nil
  · rw [h.freeList]
    exact nofun
  · rw [h.freeList]
    exact nofun
  · rw [h.live]
    exact nofun
  · rw [h.live]
    exact List.Pairwise.nil

/-- Every call of a program is served, if each of them is sound when it is made. -/
theorem along_served {ops : List HeapOp} (h : S.Fresh)
    (hrun : Along UserHeap.step (fun S op => S.Legal op ∧ S.Sound op) S ops) :
    Along UserHeap.step Served S ops := by
  refine along_iff_split.2 fun before op after hops => ?_
  subst hops
  obtain ⟨hbefore, ⟨hlegal, hsound⟩, -⟩ := along_append.1 hrun
  have hstep : ∀ (T : UserHeap) (op : HeapOp), T.Inv → T.Legal op ∧ T.Sound op →
      (T.step op).Inv := fun _ _ hT hop => (hT.step hop.1 hop.2).1
  have hinv := run_invariant hstep h.inv hbefore
  exact (hinv.step hlegal hsound).2

/-- A program whose image ends at `0x0804A000`. -/
def startHeap : UserHeap := ⟨0x0804A000, 0, 0, 0, [], fun _ => 0, [], []⟩

/-- The kernel has frames. -/
def zeroFrames : Frames := some fun _ => 0

theorem fresh_startHeap : startHeap.Fresh := ⟨rfl, rfl, rfl, rfl, rfl⟩

/-- A block is allocated, moved to a larger one and freed. -/
theorem served_mallocReallocFree :
    let ops := [HeapOp.malloc zeroFrames 24, .realloc zeroFrames 0x0804A010 100, .free 0x0804A038]
    startHeap.Fresh ∧
      Along step (fun S op => S.Legal op ∧ S.Sound op) startHeap ops ∧
      Along step Served startHeap ops := by
  have hrun : Along step (fun S op => S.Legal op ∧ S.Sound op) startHeap
      [.malloc zeroFrames 24, .realloc zeroFrames 0x0804A010 100, .free 0x0804A038] := by
    refine ⟨⟨trivial, ?_⟩, ⟨.inr ⟨24, by decide⟩, ?_⟩, ⟨.inr ⟨100, by decide⟩, trivial⟩, trivial⟩
    · exact .inr (.inr ⟨rfl, by decide, .inr ⟨by decide, nofun, nofun⟩⟩)
    · refine .inr (.inr (.inr ⟨rfl, by decide, .inr ⟨by decide, ?_, nofun⟩⟩))
      show ∀ b ∈ [(⟨0x0804A000, 24, false⟩ : HeapBlock)], b.stop ≤ 0x0804A028
      decide
  exact ⟨fresh_startHeap, hrun, along_served fresh_startHeap hrun⟩

/-- The size of a request is rounded up past the last word to 0, the product of `calloc`
wraps, and `malloc` after the public `sbrk` moves the break from where it last left it. -/
theorem requests_not_served :
    ¬ Along step Served startHeap [.malloc zeroFrames 0xFFFFFFFF] ∧
    ¬ Along step Served startHeap [.calloc zeroFrames 0x10000 0x10001] ∧
    ¬ Along step Served startHeap
      [.malloc zeroFrames 16, .sbrk zeroFrames 4096, .malloc zeroFrames 16] := by
  refine ⟨fun h => ?_, fun h => ?_, fun h => ?_⟩
  · have hlive : (0x0804A010, 0xFFFFFFFF) ∈
        (startHeap.step (.malloc zeroFrames 0xFFFFFFFF)).live := by
      decide
    exact absurd (h.1.1.inside _ hlive) (by decide)
  · have hlive : (0x0804A010, 0x10000 * 0x10001) ∈
        (startHeap.step (.calloc zeroFrames 0x10000 0x10001)).live := by
      decide
    exact absurd (h.1.1.inside _ hlive) (by decide)
  · -- the second block lies in what `sbrk` gave, and the break ends with it
    have hclear := h.2.2.1.1.clear (0x0804A030, 16) (by decide) (0x0804A020, 0x0804B020) (by decide)
    exact absurd hclear (by decide)

end UnixOs.UserHeap
