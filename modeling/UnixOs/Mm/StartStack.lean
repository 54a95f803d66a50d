import UnixOs.Mm.FreshMemory
import UnixOs.Mm.UserBytes

/-!
# The stack of a new program (exec.c, rtld.c)

`setup_exec_user_stack` computes the addresses of its five areas from the top of the
stack down, aligns the lowest to 16, computes the others again from there up, and
writes words and strings through the page tables. `_start_c` of the dynamic linker
walks the areas from the initial stack pointer. The walk gives back what was written:
the writes are disjoint, so each of them is still there at the end.
-/

namespace UnixOs

open Function List Option ExecArgs Errno
open BitVec (ofNat ofNat_add)

/-- A write of `copy_to_user_phys` does not meet another. -/
def Separate (x y : Word × List (BitVec 8)) : Prop :=
  x.1.toNat + x.2.length ≤ y.1.toNat ∨ y.1.toNat + y.2.length ≤ x.1.toNat

namespace Mm

variable {S : Mm} {d : Frame} {v : VPage} {w : Word} {held : Frame → Nat}

/-! ## Writes through the tables -/

/-- A directory shows a frame at one page only, so bytes stored into the frame of a page
show there and nowhere else. -/
theorem Inv.userByte_copyToFrame (h : Inv (· ≤ ·) S held) (hd : d ∈ S.dirs)
    (hw : S.pte d v = some w) (off : Nat) (bytes : List (BitVec 8))
    (hfit : off + bytes.length ≤ 4096) (b : Word) :
    (S.copyToFrame w.frame off bytes).userByte d b
      = if b.vpage = v ∧ off ≤ b.toNat % 4096 ∧ b.toNat % 4096 < off + bytes.length then
          bytes[b.toNat % 4096 - off]?
        else S.userByte d b := by
  obtain ⟨hinv, hdirs⟩ := h.copyToFrame hw off bytes
  have hns := h.space.notStruct_of_entry (ptr_entry_of_pte hw)
  have heq : S.copyToFrame w.frame off bytes
      = S.setFrame w.frame (overlay (S.mem w.frame) off bytes) :=
    if_pos (h.pool_of_pte hw).2
  have hmem : ∀ g ws, (S.setFrame w.frame ws).mem g = update S.mem w.frame ws g := fun _ _ => rfl
  rw [userByte_eq hinv.space (hdirs ▸ hd), userByte_eq h.space hd, heq, view, pte_setFrame hns,
    view]
  by_cases hb : b.vpage = v
  · rw [hb, hw]
    simp only [map_some, true_and]
    rw [hmem, update_self, pageByte_overlay _ hfit (Nat.mod_lt _ (by decide))]
    by_cases hin : off ≤ b.toNat % 4096 ∧ b.toNat % 4096 < off + bytes.length
    · rw [if_pos hin, if_pos hin.1, getElem?_eq_getElem (by omega)]
      rfl
    · split
      · rw [getElem?_eq_none (by omega)]
        rfl
      · rfl
  · rw [if_neg fun hc => hb hc.1]
    cases hw' : S.pte d b.vpage with
    | none => rfl
    | some w' =>
      have hne : w'.frame ≠ w.frame := by
        intro hf
        have hptr := ptr_entry_of_pte hw'
        rw [hf] at hptr
        exact hb (h.space.injective hptr (ptr_entry_of_pte hw))
      simp only [map_some]
      rw [hmem, update_of_ne hne]

section

variable (hd : d ∈ S.dirs) (hinv : Inv (· ≤ ·) S held)
include hd hinv

/-- By induction on the fuel: each round copies up to the end of a page. -/
theorem userByte_copyToUserPhys {fuel : Nat}
    {addr : Word} {bytes : List (BitVec 8)} (hfuel : bytes.length ≤ fuel)
    (hlo : 0x2000000 ≤ addr.toNat) (hhi : addr.toNat + bytes.length ≤ 0xC0000000)
    (hok : ¬ (copyToUserPhys d fuel S addr bytes).2 < 0) (b : Word) :
    (copyToUserPhys d fuel S addr bytes).1.userByte d b
      = if addr.toNat ≤ b.toNat ∧ b.toNat < addr.toNat + bytes.length then
          bytes[b.toNat - addr.toNat]?
        else S.userByte d b := by
  induction fuel generalizing S addr bytes with
  | zero =>
    rw [if_neg (by omega)]
    rfl
  | succ fuel ih =>
    rw [copyToUserPhys] at hok ⊢
    obtain rfl | hnil := eq_or_ne bytes []
    · rw [if_pos rfl, if_neg (by rw [length_nil]; omega)]
    · have hpos : 0 < bytes.length := length_pos_iff.2 hnil
      have huser : addr.vpage.1.IsUser := isUser_vpage hlo (by omega)
      rw [if_neg hnil, lookup_eq_pte hd huser] at hok ⊢
      cases hw : S.pte d addr.vpage with
      | none =>
        rw [hw] at hok
        exact absurd (show -EFAULT < 0 by decide) hok
      | some w =>
        simp only [hw] at hok ⊢
        split at hok
        · exact absurd (show -EFAULT < 0 by decide) hok
        next hzero =>
        rw [if_neg hzero]
        set m := min (4096 - addr.toNat % 4096) bytes.length with hm
        -- The first chunk ends at the end of its page.
        have hchunk : (bytes.take m).length
            = m := by
          rw [length_take, Nat.min_assoc, Nat.min_self]
        obtain ⟨hinv1, hdirs⟩ := hinv.copyToFrame hw (addr.toNat % 4096) (bytes.take m)
        have hfirst := hinv.userByte_copyToFrame hd hw (addr.toNat % 4096)
          (bytes.take m)
          (by rw [hchunk]; omega) b
        have hnext : (addr + ofNat 32 m).toNat
            = addr.toNat + m :=
          toNat_add_ofNat (by omega)
        rw [ih (hdirs ▸ hd) hinv1 (by rw [length_drop]; omega) (by omega)
          (by rw [length_drop]; omega) hok, hfirst, hnext, hchunk, length_drop]
        simp only [vpage_eq_iff]
        generalize m = n at hm ⊢
        by_cases hlater : addr.toNat + n ≤ b.toNat ∧ b.toNat < addr.toNat + n + (bytes.length - n)
        · rw [if_pos hlater, if_pos (by omega), getElem?_drop]
          congr 1
          omega
        · rw [if_neg hlater]
          by_cases hnow : b.toNat / 4096 = addr.toNat / 4096 ∧
              addr.toNat % 4096 ≤ b.toNat % 4096 ∧
              b.toNat % 4096 < addr.toNat % 4096 + n
          · rw [if_pos hnow, if_pos (by omega), getElem?_take, if_pos (by omega)]
            congr 1
            omega
          · rw [if_neg hnow, if_neg (by omega)]

/-- After writes that do not meet each other every one of them can be read. -/
theorem userByte_writeStack {ws : List (Word × List (BitVec 8))}
    (hws : ∀ x ∈ ws, 0x2000000 ≤ x.1.toNat ∧ x.1.toNat + x.2.length ≤ 0xC0000000)
    (hok : ¬ (writeStack d S ws).2 < 0) :
    (∀ b : Word, (∀ x ∈ ws, ¬ (x.1.toNat ≤ b.toNat ∧ b.toNat < x.1.toNat + x.2.length)) →
      (writeStack d S ws).1.userByte d b = S.userByte d b) ∧
    (ws.Pairwise Separate → ∀ x ∈ ws, ∀ k < x.2.length,
      (writeStack d S ws).1.userByte d (x.1 + ofNat 32 k) = x.2[k]?) := by
  induction ws generalizing S with
  | nil => exact ⟨fun _ _ => rfl, fun _ x hx => absurd hx not_mem_nil⟩
  | cons x ws ih =>
    obtain ⟨addr, bytes⟩ := x
    obtain ⟨hlo, hhi⟩ := hws (addr, bytes) mem_cons_self
    dsimp only at hlo hhi
    have hfirst := userByte_copyToUserPhys hd hinv (le_refl bytes.length) hlo hhi
    obtain ⟨-, -, hinv1, hdirs⟩ := Twin.copyToUserPhys hd bytes.length hlo hhi (Twin.refl S) hinv
    rw [writeStack] at hok ⊢
    cases hx : copyToUserPhys d bytes.length S addr bytes with
    | mk S1 rc =>
      simp only [hx] at hok hfirst hinv1 hdirs ⊢
      split at hok
      · exact absurd (show -EFAULT < 0 by decide) hok
      next hneg =>
      rw [if_neg hneg]
      obtain ⟨hframe, hrest⟩ := ih (hdirs ▸ hd) hinv1 (fun y hy => hws y (.tail _ hy)) hok
      refine ⟨fun b hb => ?_, fun hsep y hy k hk => ?_⟩
      · rw [hframe b fun y hy => hb y (.tail _ hy), hfirst hneg,
          if_neg (hb (addr, bytes) mem_cons_self)]
      · obtain ⟨hhead, htail⟩ := pairwise_cons.1 hsep
        rcases mem_cons.1 hy with rfl | hy
        · dsimp only at hk ⊢
          have hadd : (addr + ofNat 32 k).toNat = addr.toNat + k :=
            toNat_add_ofNat (by omega)
          rw [hframe _ fun z hz => ?_, hfirst hneg, hadd, if_pos ⟨by omega, by omega⟩,
            Nat.add_sub_cancel_left]
          have hz := hhead z hz
          simp only [Separate] at hz
          omega
        · exact hrest htail y hy k hk

/-- Writes to pages that are mapped succeed and leave the tables. -/
theorem copyToUserPhys_mapped (fuel : Nat)
    {addr : Word} {bytes : List (BitVec 8)} (hlo : 0x2000000 ≤ addr.toNat)
    (hhi : addr.toNat + bytes.length ≤ 0xC0000000)
    (hmapped : ∀ b : Word, addr.toNat ≤ b.toNat → b.toNat < addr.toNat + bytes.length →
      (S.pte d b.vpage).isSome) :
    (copyToUserPhys d fuel S addr bytes).2 = 0 ∧
      (copyToUserPhys d fuel S addr bytes).1.pte = S.pte := by
  induction fuel generalizing S addr bytes with
  | zero => exact ⟨rfl, rfl⟩
  | succ fuel ih =>
    rw [copyToUserPhys]
    by_cases hnil : bytes = []
    · rw [if_pos hnil]
      exact ⟨rfl, rfl⟩
    · have hpos : 0 < bytes.length := length_pos_iff.2 hnil
      have huser : addr.vpage.1.IsUser := isUser_vpage hlo (by omega)
      obtain ⟨w, hw⟩ := isSome_iff_exists.1 (hmapped addr (le_refl _) (by omega))
      have hpool := hinv.pool_of_pte hw
      have hframe : w.frame ≠ 0 := by
        intro h0
        rw [h0] at hpool
        exact absurd hpool.1 (by decide)
      rw [if_neg hnil, lookup_eq_pte hd huser, hw]
      simp only [if_neg fun h : w.frame = 0 ∧ _ => hframe h.1]
      have heq : ∀ off bytes, S.copyToFrame w.frame off bytes
          = S.setFrame w.frame (overlay (S.mem w.frame) off bytes) := fun _ _ =>
        if_pos hpool.2
      have hpte : ∀ off bytes, (S.copyToFrame w.frame off bytes).pte = S.pte := by
        intro off bytes
        rw [heq, pte_setFrame (hinv.space.notStruct_of_entry (ptr_entry_of_pte hw))]
      set m := min (4096 - addr.toNat % 4096) bytes.length with hm
      obtain ⟨hinv1, hdirs⟩ := hinv.copyToFrame hw (addr.toNat % 4096) (bytes.take m)
      have hnext : (addr + ofNat 32 m).toNat
          = addr.toNat + m :=
        toNat_add_ofNat (by omega)
      rw [← hpte (addr.toNat % 4096) (bytes.take m)]
      refine ih (hdirs ▸ hd) hinv1 (by omega) (by rw [length_drop]; omega) ?_
      intro b hb hb'
      rw [hpte]
      rw [length_drop] at hb'
      exact hmapped b (by omega) (by omega)

/-- The writes succeed where every byte is mapped. -/
theorem writeStack_mapped {ws : List (Word × List (BitVec 8))}
    (hws : ∀ x ∈ ws, 0x2000000 ≤ x.1.toNat ∧ x.1.toNat + x.2.length ≤ 0xC0000000)
    (hmapped : ∀ x ∈ ws, ∀ b : Word, x.1.toNat ≤ b.toNat → b.toNat < x.1.toNat + x.2.length →
      (S.pte d b.vpage).isSome) : (writeStack d S ws).2 = 0 := by
  induction ws generalizing S with
  | nil => rfl
  | cons x ws ih =>
    obtain ⟨addr, bytes⟩ := x
    obtain ⟨hlo, hhi⟩ := hws (addr, bytes) mem_cons_self
    obtain ⟨hrc, hpte⟩ := copyToUserPhys_mapped hd hinv bytes.length hlo hhi
      (hmapped (addr, bytes) mem_cons_self)
    obtain ⟨-, -, hinv1, hdirs⟩ := Twin.copyToUserPhys hd bytes.length hlo hhi (Twin.refl S) hinv
    rw [writeStack]
    cases hx : copyToUserPhys d bytes.length S addr bytes with
    | mk S1 rc =>
      simp only [hx] at hrc hpte hinv1 hdirs ⊢
      rw [hrc]
      refine ih (hdirs ▸ hd) hinv1 (fun y hy => hws y (.tail _ hy)) ?_
      intro y hy b
      rw [hpte]
      exact hmapped y (.tail _ hy) b

end

end Mm

/-! ## The walk of the dynamic linker -/

/-- The word with these bytes. -/
def Word.ofBytes (b0 b1 b2 b3 : BitVec 8) : Word := b3 ++ b2 ++ b1 ++ b0

/-- The bytes of a word make up the word. -/
theorem Word.ofBytes_byte (w : Word) :
    Word.ofBytes (w.byte 0) (w.byte 1) (w.byte 2) (w.byte 3) = w := by
  refine BitVec.eq_of_getLsbD_eq fun i hi => ?_
  simp only [Word.ofBytes, Word.byte, BitVec.getLsbD_append, BitVec.getLsbD_extractLsb']
  split
  next h => simp [h]
  next h =>
  split
  next h1 =>
    simp only [h1, decide_true, Bool.true_and]
    congr 1
    omega
  next h1 =>
  split
  next h2 =>
    simp only [h2, decide_true, Bool.true_and]
    congr 1
    omega
  next h2 =>
    have h3 : i - 8 - 8 - 8 < 8 := by omega
    simp only [h3, decide_true, Bool.true_and]
    congr 1
    omega

section Walk

variable (load : Word → Option (BitVec 8))

def loadWord (a : Word) : Option Word := do
  let b0 ← load a
  let b1 ← load (a + 1)
  let b2 ← load (a + 2)
  let b3 ← load (a + 3)
  return .ofBytes b0 b1 b2 b3

/-- The string at `a` up to its terminator, of less than `len` bytes. -/
def loadString : Nat → Word → Option (List (BitVec 8))
  | 0, _ => none
  | len + 1, a => do
    let x ← load a
    if x = 0 then return []
    else return x :: (← loadString len (a + 1))

/-- The strings of a table of `n` pointers. -/
def loadStrings (len : Nat) : Nat → Word → Option (List (List (BitVec 8)))
  | 0, _ => some []
  | n + 1, tbl => do
    let s ← loadString load len (← loadWord load tbl)
    return s :: (← loadStrings len n (tbl + 4))

/-- The loop over `envp` (rtld.c:629), with the strings it passes and where it ends. -/
def skipEnvp (len : Nat) : Nat → Word → Option (List (List (BitVec 8)) × Word)
  | 0, _ => none
  | fuel + 1, sp => do
    let ptr ← loadWord load sp
    if ptr = 0 then return ([], sp + 4)
    else
      let s ← loadString load len ptr
      let (strs, auxv) ← skipEnvp len fuel (sp + 4)
      return (s :: strs, auxv)

def atNull : Word := 0

/-- The loop over `auxv` (rtld.c:638), with the pair that ends it. -/
def walkAuxv : Nat → Word → Option (List (Word × Word))
  | 0, _ => some []
  | n + 1, auxv => do
    let type ← loadWord load auxv
    let val ← loadWord load (auxv + 4)
    if type = atNull then return [(type, val)]
    else return (type, val) :: (← walkAuxv n (auxv + 8))

/-- What a program finds on its stack. -/
structure StartArgs where
  argc : Word
  argv : List (List (BitVec 8))
  envp : List (List (BitVec 8))
  auxv : List (Word × Word)

/-- `_start_c` (rtld.c:622) up to its loop over `auxv`, with the strings its pointers
lead to. `len` bounds the strings and `fuel` the environment. -/
def startC (len fuel : Nat) (sp : Word) : Option StartArgs := do
  let argc ← loadWord load sp
  let argv ← loadStrings load len argc.toNat (sp + 4)
  let (envp, auxv) ← skipEnvp load len fuel (sp + 4 + ofNat 32 (4 * (argc.toNat + 1)))
  let pairs ← walkAuxv load 15 auxv
  return ⟨argc, argv, envp, pairs⟩

/-- The bytes of a write can be read. -/
def Reads (x : Word × List (BitVec 8)) : Prop :=
  ∀ k < x.2.length, load (x.1 + ofNat 32 k) = x.2[k]?

variable {load}

theorem Reads.append {a : Word} (xs : List (BitVec 8)) {ys : List (BitVec 8)}
    (h : Reads load (a, xs ++ ys)) :
    Reads load (a, xs) ∧ Reads load (a + ofNat 32 xs.length, ys) := by
  simp only [Reads, length_append] at h ⊢
  refine ⟨fun k hk => ?_, fun k hk => ?_⟩
  · rw [h k (by omega), getElem?_append_left hk]
  · rw [BitVec.add_assoc, ← ofNat_add, h _ (by omega), getElem?_append_right (by omega),
      Nat.add_sub_cancel_left]

theorem Reads.loadWord {a w : Word} (h : Reads load (a, wordBytes w)) :
    loadWord load a = some w := by
  have h₀ : load (a + 0#32) = some (w.byte 0) := h 0 (show 0 < 4 by decide)
  have h1 : load (a + 1) = some (w.byte 1) := h 1 (show 1 < 4 by decide)
  have h2 : load (a + 2) = some (w.byte 2) := h 2 (show 2 < 4 by decide)
  have h3 : load (a + 3) = some (w.byte 3) := h 3 (show 3 < 4 by decide)
  rw [BitVec.add_zero] at h₀
  rw [UnixOs.loadWord, h₀, h1, h2, h3]
  exact congrArg some w.ofBytes_byte

/-- A string is read up to its terminator. -/
theorem Reads.loadString {a : Word} {s : List (BitVec 8)} (h : Reads load (a, s ++ [0]))
    (hs : 0 ∉ s) {len : Nat} (hlen : s.length < len) : loadString load len a = some s := by
  induction s generalizing a len with
  | nil =>
    obtain ⟨len, rfl⟩ := Nat.exists_eq_succ_of_ne_zero (Nat.ne_of_gt hlen)
    have h₀ : load (a + 0#32) = some 0 := h 0 (show 0 < 1 by decide)
    rw [BitVec.add_zero] at h₀
    rw [UnixOs.loadString, h₀]
    rfl
  | cons x s ih =>
    obtain ⟨len, rfl⟩ := Nat.exists_eq_succ_of_ne_zero (Nat.ne_of_gt (Nat.zero_lt_of_lt hlen))
    have h₀ : load (a + 0#32) = some x := h 0 (by simp)
    rw [BitVec.add_zero] at h₀
    have hx : x ≠ 0 := fun hc => hs (hc ▸ mem_cons_self)
    have hrest := ih (a := a + 1) (Reads.append [x] h).2
      (fun hc => hs (.tail x hc)) (show s.length < len by simpa using hlen)
    rw [UnixOs.loadString, h₀]
    simp only [bind_eq_bind, bind_some, if_neg hx, hrest]
    rfl

open ExecArgs in
/-- By induction on the strings. -/
theorem loadStrings_of_reads {tbl : Word} (ptr : Word) {strs : List (List (BitVec 8))} {len : Nat}
    (h : ∀ x ∈ tableWrites tbl ptr strs, Reads load x) (hstr : ∀ s ∈ strs, 0 ∉ s ∧ s.length < len) :
    loadStrings load len strs.length tbl = some strs := by
  induction strs generalizing tbl ptr with
  | nil => rfl
  | cons s strs ih =>
    obtain ⟨hzero, hlen⟩ := hstr s mem_cons_self
    have hs := (h _ mem_cons_self).loadString hzero hlen
    have hp := (h _ (.tail _ mem_cons_self)).loadWord
    have hrest := ih _ (fun x hx => h x (.tail _ (.tail _ hx)))
      fun t ht => hstr t (.tail s ht)
    rw [length_cons, loadStrings, hp]
    simp only [bind_eq_bind, bind_some, hs, hrest]
    rfl

open ExecArgs in
/-- By induction on the strings, up to the null pointer. -/
theorem skipEnvp_of_reads {tbl : Word} (ptr : Word) {strs : List (List (BitVec 8))} {len fuel : Nat}
    (h : ∀ x ∈ tableWrites tbl ptr strs, Reads load x)
    (hstr : ∀ s ∈ strs, 0 ∉ s ∧ s.length < len) (hpos : 0 < ptr.toNat)
    (hend : ptr.toNat + stringsSize strs < 2 ^ 32) (hfuel : strs.length < fuel) :
    skipEnvp load len fuel tbl = some (strs, tbl + ofNat 32 (4 * (strs.length + 1))) := by
  induction strs generalizing tbl ptr fuel with
  | nil =>
    obtain ⟨fuel, rfl⟩ := Nat.exists_eq_succ_of_ne_zero (Nat.ne_of_gt hfuel)
    have hp := (h _ mem_cons_self).loadWord
    rw [skipEnvp, hp]
    rfl
  | cons s strs ih =>
    obtain ⟨fuel, rfl⟩ := Nat.exists_eq_succ_of_ne_zero (Nat.ne_of_gt (Nat.zero_lt_of_lt hfuel))
    obtain ⟨hzero, hlen⟩ := hstr s mem_cons_self
    simp only [stringsSize, map_cons, sum_cons] at hend
    have hnext : (ptr + ofNat 32 (s.length + 1)).toNat = ptr.toNat + (s.length + 1) :=
      toNat_add_ofNat (by omega)
    have hs := (h _ mem_cons_self).loadString hzero hlen
    have hp := (h _ (.tail _ mem_cons_self)).loadWord
    have hne : ptr ≠ 0 := by
      rintro rfl
      exact absurd hpos (by decide)
    have hrest := ih _
      (fun x hx => h x (.tail _ (.tail _ hx)))
      (fun t ht => hstr t (.tail s ht)) (by omega)
      (by simp only [stringsSize]; omega) (show strs.length < fuel by simpa using hfuel)
    rw [skipEnvp, hp]
    simp only [bind_eq_bind, bind_some, if_neg hne, hs, hrest]
    refine congrArg (fun a => some (s :: strs, a)) ?_
    rw [length_cons, Nat.mul_add 4 (strs.length + 1), ofNat_add, BitVec.add_assoc,
      BitVec.add_comm (ofNat 32 (4 * (strs.length + 1)))]
    rfl

/-- A walk over pairs that ends at the first with the type `AT_NULL`. -/
theorem walkAuxv_of_reads (pairs : List (Word × Word)) {val a : Word} {n : Nat}
    (h : Reads load (a, ((pairs ++ [(atNull, val)]).flatMap fun p => [p.1, p.2]).flatMap wordBytes))
    (hne : ∀ p ∈ pairs, p.1 ≠ atNull) (hn : pairs.length < n) :
    walkAuxv load n a = some (pairs ++ [(atNull, val)]) := by
  induction pairs generalizing a n with
  | nil =>
    obtain ⟨n, rfl⟩ := Nat.exists_eq_succ_of_ne_zero (Nat.ne_of_gt hn)
    obtain ⟨htype, hval⟩ := Reads.append (wordBytes atNull) h
    have hval' : loadWord load (a + 4) = some val := Reads.loadWord hval
    rw [walkAuxv, htype.loadWord]
    simp only [bind_eq_bind, bind_some, hval']
    rfl
  | cons p pairs ih =>
    obtain ⟨n, rfl⟩ := Nat.exists_eq_succ_of_ne_zero (Nat.ne_of_gt (Nat.zero_lt_of_lt hn))
    obtain ⟨htype, hrest⟩ := Reads.append (wordBytes p.1) h
    obtain ⟨hval, hrest⟩ := Reads.append (wordBytes p.2) hrest
    have hval' : loadWord load (a + 4) = some p.2 := hval.loadWord
    have haddr : a + ofNat 32 4 + ofNat 32 4 = a + 8 := by
      rw [BitVec.add_assoc]
      rfl
    have hpairs := ih (a := a + 8) (by rw [← haddr]; exact hrest)
      (fun q hq => hne q (.tail p hq)) (by simpa using hn)
    rw [walkAuxv, htype.loadWord]
    simp only [bind_eq_bind, bind_some, hval', if_neg (hne p mem_cons_self), hpairs]
    rfl

end Walk

/-! ## The areas -/

namespace ExecArgs

variable (a : ExecArgs)

/-- The areas of the argument count, `argv`, `envp`, the auxiliary vector and the
strings: where they start and how long they are. -/
def areas : List (Nat × Nat) :=
  [(a.argcAddr.toNat, 4), (a.argvStart.toNat, 4 * (a.argv.length + 1)),
    (a.envpStart.toNat, 4 * (a.envp.length + 1)), (a.auxvAddr.toNat, 4 * a.auxvCount),
    (a.stringsAddr.toNat, stringsSize (a.argv ++ a.envp))]

/-- `context.esp` (exec.c:194, exec.c:213). -/
def esp : Word := if a.auxv.isSome then a.argcAddr else a.frameBase

/-- Two ranges of bytes have none in common. -/
def Disjoint (x y : Nat × Nat) : Prop := x.1 + x.2 ≤ y.1 ∨ y.1 + y.2 ≤ x.1

theorem areas_disjoint : a.areas.Pairwise Disjoint := by
  obtain ⟨hargv, henvp, hauxv, hstr, -, -⟩ := a.toNat_starts
  simp only [areas, Disjoint, pairwise_cons, mem_cons, not_mem_nil, or_false,
    forall_eq_or_imp, forall_eq, IsEmpty.forall_iff, implies_true, List.Pairwise.nil, and_true]
  omega

theorem areas_end {x : Nat × Nat} (hx : x ∈ a.areas) :
    x.1 + x.2 ≤ (userStackBase - 4096).toNat := by
  obtain ⟨hargv, henvp, hauxv, hstr, -, hend⟩ := a.toNat_starts
  have hsplit := stringsSize_append a.argv a.envp
  have htop : (userStackBase - 4096).toNat = 0x7FFFF000 := by decide
  simp only [areas, mem_cons, not_mem_nil, or_false] at hx
  rcases hx with rfl | rfl | rfl | rfl | rfl <;> dsimp only <;> omega

theorem esp_aligned (haux : a.auxv.isSome) : a.esp.toNat % 16 = 0 := by
  rw [esp, if_pos haux, argcAddr, toNat_and_not_fifteen]
  omega

/-- The pointers lie below the strings, and the strings one behind the other. -/
theorem separate_tableWrites {strs : List (List (BitVec 8))} {tbl ptr : Word}
    (happart : tbl.toNat + 4 * (strs.length + 1) ≤ ptr.toNat)
    (hptr : ptr.toNat + stringsSize strs < 2 ^ 32) :
    (tableWrites tbl ptr strs).Pairwise Separate := by
  induction strs generalizing tbl ptr with
  | nil => exact pairwise_singleton _ _
  | cons s strs ih =>
    simp only [stringsSize, map_cons, sum_cons, length_cons] at hptr happart
    have hnext : (tbl + 4).toNat = tbl.toNat + 4 := by
      exact Nat.mod_eq_of_lt (by show tbl.toNat + 4 < _; omega)
    have hnext' : (ptr + ofNat 32 (s.length + 1)).toNat = ptr.toNat + (s.length + 1) :=
      toNat_add_ofNat (by omega)
    have hsize : stringsSize strs = (strs.map fun s => s.length + 1).sum := rfl
    have hword : (wordBytes ptr).length = 4 := rfl
    -- The rest of the table lies above its first word, the other strings above the first.
    have hrest : ∀ x ∈ tableWrites (tbl + 4) (ptr + ofNat 32 (s.length + 1)) strs,
        tbl.toNat + 4 ≤ x.1.toNat ∧
          (x.1.toNat + x.2.length ≤ ptr.toNat ∨ ptr.toNat + (s.length + 1) ≤ x.1.toNat) := by
      intro x hx
      have hin := area_of_mem_tableWrites (by omega) (by omega) hx
      omega
    refine pairwise_cons.2 ⟨fun x hx => ?_, pairwise_cons.2 ⟨fun x hx => ?_, ?_⟩⟩
    · simp only [Separate, length_append, length_singleton]
      rcases mem_cons.1 hx with rfl | hx
      · dsimp only
        omega
      · have := hrest x hx
        omega
    · simp only [Separate]
      have := hrest x hx
      omega
    · exact ih (by omega) (by omega)

variable {a}

theorem stackWrites_of_auxv {ws : List Word} (haux : a.auxv = some ws) :
    a.stackWrites = (a.argcAddr, wordBytes (ofNat 32 a.argv.length)) ::
      tableWrites a.argvStart a.stringsAddr a.argv ++
      tableWrites a.envpStart (a.stringsAddr + ofNat 32 (stringsSize a.argv)) a.envp ++
      [(a.auxvAddr, ws.flatMap wordBytes)] := by
  rw [stackWrites, haux]

/-- Every write goes to one of the areas. -/
theorem area_of_mem_stackWrites {ws : List Word} (haux : a.auxv = some ws)
    {x : Word × List (BitVec 8)} (hx : x ∈ a.stackWrites) :
    ∃ y ∈ a.areas, y.1 ≤ x.1.toNat ∧ x.1.toNat + x.2.length ≤ y.1 + y.2 := by
  obtain ⟨hargv, henvp, hauxv, hstr, hstr', hend⟩ := a.toNat_starts
  have hsplit := stringsSize_append a.argv a.envp
  simp only [areas, mem_cons, not_mem_nil, or_false, exists_eq_or_imp, exists_eq_left]
  rw [stackWrites_of_auxv haux, cons_append] at hx
  rcases mem_cons.1 hx with rfl | hx
  · exact .inl ⟨le_refl _, le_refl _⟩
  rcases mem_append.1 hx with hx | hx
  · rcases mem_append.1 hx with hx | hx
    · have hin := area_of_mem_tableWrites (by omega) (by omega) hx
      omega
    · have hin := area_of_mem_tableWrites (by omega) (by omega) hx
      omega
  · obtain rfl := mem_singleton.1 hx
    have hws : ws.length = 14 := a.auxv_length ws haux
    have hcount : a.auxvCount = 14 := by rw [auxvCount, haux]; rfl
    dsimp only
    rw [length_flatMap_wordBytes]
    omega

/-- The auxiliary vector, the tables and the strings do not overlap. -/
theorem separate_stackWrites {ws : List Word} (haux : a.auxv = some ws) :
    a.stackWrites.Pairwise Separate := by
  obtain ⟨hargv, henvp, hauxv, hstr, hstr', hend⟩ := a.toNat_starts
  have hws : ws.length = 14 := a.auxv_length ws haux
  have hcount : a.auxvCount = 14 := by rw [auxvCount, haux]; rfl
  have hword : (wordBytes (ofNat 32 a.argv.length)).length = 4 := rfl
  have hlast := length_flatMap_wordBytes ws
  rw [stackWrites_of_auxv haux]
  refine pairwise_cons.2 ⟨fun x hx => ?_, pairwise_append.2 ⟨pairwise_append.2
    ⟨separate_tableWrites (by omega) (by omega), separate_tableWrites (by omega) (by omega),
      fun x hx y hy => ?_⟩, pairwise_singleton _ _, fun x hx y hy => ?_⟩⟩
  · -- Everything else lies above the argument count.
    simp only [Separate]
    rcases mem_append.1 hx with hx | hx
    · have hin := a.area_of_mem_tables hx
      omega
    · obtain rfl := mem_singleton.1 hx
      dsimp only
      omega
  · have hin := area_of_mem_tableWrites (by omega) (by omega) hx
    have hin' := area_of_mem_tableWrites (by omega) (by omega) hy
    rw [Separate]
    omega
  · obtain rfl := mem_singleton.1 hy
    simp only [Separate]
    have hin := a.area_of_mem_tables hx
    omega

end ExecArgs

/-! ## The round trip -/

/-- The auxiliary vector of a program with an interpreter (exec.c:175). -/
def auxvPairs (elfPhdr elfPhnum interpBase elfEntry : Word) : List (Word × Word) :=
  [(3, elfPhdr), (4, 32), (5, elfPhnum), (6, 4096), (7, interpBase), (9, elfEntry), (atNull, 0)]

namespace Vm

variable {S : Vm} {d : Frame} {a : ExecArgs} {elfPhdr elfPhnum interpBase elfEntry : Word}

/-- The walk of the dynamic linker over a stack that `setup_exec_user_stack` has written
gives back the arguments, the environment and the auxiliary vector; the areas are apart,
hold all that is written and end below the last page of the stack. -/
theorem startC_setupExecUserStack (hinv : Mm.Inv (· ≤ ·) S.mm Mm.noneHeld) (hd : d ∈ S.mm.dirs)
    (haux : a.auxv = some
      ((auxvPairs elfPhdr elfPhnum interpBase elfEntry).flatMap fun p => [p.1, p.2]))
    (hstr : ∀ s ∈ a.argv ++ a.envp, 0 ∉ s) (hok : ¬ (S.setupExecUserStack d a).2 < 0)
    {fuel : Nat} (hfuel : maxExecEnvs < fuel) :
    startC ((S.setupExecUserStack d a).1.mm.userByte d) maxArgLen fuel a.esp
      = some ⟨ofNat 32 a.argv.length, a.argv, a.envp,
          auxvPairs elfPhdr elfPhnum interpBase elfEntry⟩ ∧ a.areas.Pairwise ExecArgs.Disjoint ∧
    (∀ x ∈ a.stackWrites, ∃ y ∈ a.areas, y.1 ≤ x.1.toNat ∧ x.1.toNat + x.2.length ≤ y.1 + y.2) ∧
    (∀ y ∈ a.areas, y.1 + y.2 ≤ (userStackBase - 4096).toNat) ∧ a.esp.toNat % 16 = 0 := by
  refine ⟨?_, a.areas_disjoint, fun x hx => area_of_mem_stackWrites haux hx,
    fun y hy => a.areas_end hy, a.esp_aligned (by rw [haux]; rfl)⟩
  have hreads : ∀ x ∈ a.stackWrites,
      Reads ((S.setupExecUserStack d a).1.mm.userByte d) x := by
    intro x hx k hk
    exact (Mm.userByte_writeStack hd hinv (fun x hx => a.bounds_of_mem_stackWrites hx) hok).2
      (separate_stackWrites haux) x hx k hk
  generalize (S.setupExecUserStack d a).1.mm.userByte d = load at hreads ⊢
  rw [stackWrites_of_auxv haux] at hreads
  obtain ⟨hargv, henvp, hauxv, hstr1, hstr2, hend⟩ := a.toNat_starts
  have henvc : a.envp.length < fuel := lt_of_le_of_lt a.envc_le hfuel
  have hshort : ∀ s ∈ a.argv ++ a.envp, 0 ∉ s ∧ s.length < maxArgLen := fun s hs =>
    ⟨hstr s hs, a.short s hs⟩
  have hcount : (ofNat 32 a.argv.length).toNat = a.argv.length := by
    rw [BitVec.toNat_ofNat]
    omega
  -- The count, the two tables and the auxiliary vector, each where the one before ends.
  have hfirst : loadWord load a.argcAddr = some (ofNat 32 a.argv.length) :=
    (hreads _ (by simp)).loadWord
  have hargs : loadStrings load maxArgLen a.argv.length a.argvStart = some a.argv :=
    loadStrings_of_reads a.stringsAddr (fun x hx => hreads x (by simp [hx]))
      fun s hs => hshort s (mem_append_left _ hs)
  have henvs : skipEnvp load maxArgLen fuel a.envpStart = some (a.envp, a.auxvAddr) :=
    skipEnvp_of_reads (a.stringsAddr + ofNat 32 (stringsSize a.argv))
      (fun x hx => hreads x (by simp [hx])) (fun s hs => hshort s (mem_append_right _ hs))
      (by omega) (by omega) henvc
  have hpairs : walkAuxv load 15 a.auxvAddr
      = some (auxvPairs elfPhdr elfPhnum interpBase elfEntry) :=
    walkAuxv_of_reads [(3, elfPhdr), (4, 32), (5, elfPhnum), (6, 4096),
      (7, interpBase), (9, elfEntry)] (hreads _ (by simp [auxvPairs])) (by simp [atNull])
      (show 6 < 15 by decide)
  rw [esp, haux, isSome_some, if_pos rfl, startC, hfirst]
  simp only [bind_eq_bind, bind_some, hcount]
  change (loadStrings load maxArgLen a.argv.length a.argvStart).bind (fun argv =>
    (skipEnvp load maxArgLen fuel a.envpStart).bind fun x =>
      (walkAuxv load 15 x.2).bind fun pairs => _) = _
  rw [hargs, bind_some, henvs, bind_some, hpairs]
  rfl

/-- `sh -c` with one variable. -/
def shellArgs : ExecArgs where
  argv := [[0x73, 0x68], [0x2D, 0x63]]
  envp := [[0x41, 0x3D, 0x31]]
  auxv := some ((auxvPairs 0x08048034 5 userHeapBase 0x08048100).flatMap fun p => [p.1, p.2])
  argc_le := by decide
  envc_le := by decide
  short := by decide
  auxv_length := by decide

/-- Arguments that fit the stack of the first process are accepted. -/
theorem firstVm_setupExecUserStack {ws : List Word} (haux : a.auxv = some ws)
    (hfit : stackBottom ≤ a.argcAddr.toNat) : (firstVm.setupExecUserStack 2816 a).2 = 0 := by
  obtain ⟨m, hfirst, hinv, hd, -, hstack⟩ := firstVm_spec
  rw [hfirst]
  refine Mm.writeStack_mapped hd hinv (fun x hx => a.bounds_of_mem_stackWrites hx)
    fun x hx b hb hb' => hstack _ ((vpage_mem_stackPages b).2 ?_)
  obtain ⟨y, hy, hlo, hhi⟩ := area_of_mem_stackWrites haux hx
  have hend := a.areas_end hy
  have htop : (userStackBase - 4096).toNat = 0x7FFFF000 := by decide
  have htop' : userStackBase.toNat = 0x80000000 := rfl
  have hfrom : a.argcAddr.toNat ≤ y.1 := by
    obtain ⟨hargv, henvp, hauxv, hstr, -, -⟩ := a.toNat_starts
    simp only [areas, mem_cons, not_mem_nil, or_false] at hy
    rcases hy with rfl | rfl | rfl | rfl | rfl <;> dsimp only <;> omega
  omega

theorem startC_shellArgs :
    (firstVm.setupExecUserStack 2816 shellArgs).2 = 0 ∧
      startC ((firstVm.setupExecUserStack 2816 shellArgs).1.mm.userByte 2816) maxArgLen 33
        shellArgs.esp
        = some ⟨2, shellArgs.argv, shellArgs.envp,
            auxvPairs 0x08048034 5 userHeapBase 0x08048100⟩ := by
  obtain ⟨m, hfirst, hinv, hd, -, -⟩ := firstVm_spec
  have hok : (firstVm.setupExecUserStack 2816 shellArgs).2 = 0 :=
    firstVm_setupExecUserStack rfl (by decide)
  refine ⟨hok, (startC_setupExecUserStack (by rw [hfirst]; exact hinv)
    (by rw [hfirst]; exact hd) rfl (by decide) (by rw [hok]; decide) (by decide)).1⟩

end Vm

end UnixOs
