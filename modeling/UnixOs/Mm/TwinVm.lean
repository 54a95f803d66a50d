import UnixOs.Mm.Exec
import UnixOs.Mm.TwinFork

/-!
# Ranges, segments and stacks on twins

The loops of `sys_mmap`, of the loader and of `setup_exec_user_stack` reach pages
of user space only. For a segment this needs a count: the loader checks where a
segment starts and not where it ends, but there are too few frames for a segment
that starts below `USER_SPACE_END` to reach the end of user space.
-/

namespace UnixOs

open List

open BitVec (ofNat toNat_add toNat_ofNat)

/-! ## Addresses -/

theorem toNat_add_ofNat {p : Word} {i : Nat} (h : p.toNat + i < 2 ^ 32) :
    (p + ofNat 32 i).toNat = p.toNat + i := by
  rw [toNat_add, toNat_ofNat]
  omega

theorem Word.toNat_and_not (x : Word) (k : Nat) :
    (x &&& ~~~ ofNat 32 (2 ^ k - 1)).toNat = x.toNat / 2 ^ k * 2 ^ k := by
  have hshift : x &&& ~~~ ofNat 32 (2 ^ k - 1) = (x >>> k) <<< k := by
    refine BitVec.eq_of_getLsbD_eq fun i hi => ?_
    rw [BitVec.getLsbD_and, BitVec.getLsbD_not, BitVec.getLsbD_ofNat,
      Nat.testBit_two_pow_sub_one, BitVec.getLsbD_shiftLeft, BitVec.getLsbD_ushiftRight]
    by_cases hik : i < k
    · simp [hi, hik]
    · simp [hi, hik, Nat.add_sub_cancel' (not_lt.1 hik)]
  have hlt : x.toNat / 2 ^ k * 2 ^ k < 2 ^ 32 := (Nat.div_mul_le_self _ _).trans_lt x.isLt
  rw [hshift, BitVec.toNat_shiftLeft, BitVec.toNat_ushiftRight, Nat.shiftRight_eq_div_pow,
    Nat.shiftLeft_eq, Nat.mod_eq_of_lt hlt]

theorem toNat_pageAddrMask (a : Word) : (a &&& pageAddrMask).toNat = a.toNat / 4096 * 4096 :=
  a.toNat_and_not 12

theorem isUser_vpage {a : Word} (hlo : 0x2000000 ≤ a.toNat) (hhi : a.toNat < 0xC0000000) :
    a.vpage.1.IsUser := by
  simp only [Word.vpage, vpageOf, Idx.IsUser, Word.frame, numKernelPageTables, userPdeLast]
  omega

theorem mem_pagesFromTo {a b x : Word} (h : x ∈ pagesFromTo a b) :
    a.toNat ≤ x.toNat ∧ x.toNat < b.toNat := by
  obtain ⟨k, hk, rfl⟩ := mem_map.1 h
  rw [mem_range] at hk
  rw [toNat_add, toNat_ofNat]
  omega

namespace ExecArgs

/-! ## The stack of a new program -/

variable (a : ExecArgs)

theorem stringsSize_append (s t : List (List (BitVec 8))) :
    stringsSize (s ++ t) = stringsSize s + stringsSize t := by
  rw [stringsSize, map_append, sum_append]
  rfl

theorem stringsSize_le (strs : List (List (BitVec 8)))
    (h : ∀ s ∈ strs, s.length < maxArgLen) : stringsSize strs ≤ 4096 * strs.length := by
  induction strs with
  | nil => exact le_refl _
  | cons s strs ih =>
    have hs := h s mem_cons_self
    have hrest := ih fun t ht => h t (.tail s ht)
    simp only [stringsSize, maxArgLen, map_cons, sum_cons, length_cons] at *
    omega

theorem length_flatMap_wordBytes (ws : List Word) :
    (ws.flatMap wordBytes).length = 4 * ws.length := by
  induction ws with
  | nil => rfl
  | cons w ws ih =>
    rw [flatMap_cons, length_append, ih, length_cons, Nat.mul_add]
    exact add_comm 4 _

/-- The bytes above `argc_addr`. -/
def above : Nat :=
  4 + 4 * (a.argv.length + 1) + 4 * (a.envp.length + 1) + 4 * a.auxvCount

theorem above_le : a.above ≤ 512 := by
  have hargc : a.argv.length ≤ 64 := a.argc_le
  have henvc : a.envp.length ≤ 32 := a.envc_le
  simp only [above, auxvCount]
  split <;> omega

theorem stringsSize_all : stringsSize (a.argv ++ a.envp) ≤ 393216 := by
  have hle := stringsSize_le _ a.short
  have hargc : a.argv.length ≤ 64 := a.argc_le
  have henvc : a.envp.length ≤ 32 := a.envc_le
  rw [length_append] at hle
  omega

theorem toNat_and_not_three (x : Word) : (x &&& ~~~ 3).toNat = x.toNat / 4 * 4 := by
  simpa using x.toNat_and_not 2

theorem toNat_and_not_fifteen (x : Word) : (x &&& ~~~ 0xF).toNat = x.toNat / 16 * 16 := by
  simpa using x.toNat_and_not 4

theorem toNat_sub_ofNat {x : Word} {k : Nat} (h : k ≤ x.toNat) :
    (x - ofNat 32 k).toNat = x.toNat - k := by
  rw [BitVec.toNat_sub, toNat_ofNat]
  omega

/-- Everything lies between `argc_addr` and the top of the stack. -/
theorem argcAddr_bounds :
    0x7FF00000 ≤ a.argcAddr.toNat ∧
      a.argcAddr.toNat + a.above + stringsSize (a.argv ++ a.envp) ≤ 0x7FFFF000 := by
  have habove := a.above_le
  have hsize := a.stringsSize_all
  have hunfold : a.above
      = 4 + 4 * (a.argv.length + 1) + 4 * (a.envp.length + 1) + 4 * a.auxvCount := rfl
  have htop : (userStackBase - 4096).toNat = 0x7FFFF000 := by decide
  have hstrings := toNat_and_not_three (userStackBase - 4096 -
    ofNat 32 (stringsSize (a.argv ++ a.envp)))
  rw [toNat_sub_ofNat (by omega), htop] at hstrings
  rw [argcAddr, toNat_and_not_fifteen]
  generalize (userStackBase - 4096 -
    ofNat 32 (stringsSize (a.argv ++ a.envp))) &&& ~~~ 3 = x at hstrings
  have h1 := toNat_sub_ofNat (x := x) (k := 4 * a.auxvCount) (by omega)
  generalize x - ofNat 32 (4 * a.auxvCount) = y at h1
  have h2 := toNat_sub_ofNat (x := y) (k := 4 * (a.envp.length + 1)) (by omega)
  generalize y - ofNat 32 (4 * (a.envp.length + 1)) = z at h2
  have h3 := toNat_sub_ofNat (x := z) (k := 4 * (a.argv.length + 1)) (by omega)
  generalize z - ofNat 32 (4 * (a.argv.length + 1)) = u at h3
  rw [show u - 4 = u - ofNat 32 4 from rfl, toNat_sub_ofNat (by omega)]
  omega

/-- The writes of a table go to its own words and to the place of its strings. -/
theorem area_of_mem_tableWrites {strs : List (List (BitVec 8))} {tbl ptr : Word}
    (htbl : tbl.toNat + 4 * (strs.length + 1) < 2 ^ 32)
    (hptr : ptr.toNat + stringsSize strs < 2 ^ 32) {x : Word × List (BitVec 8)}
    (hx : x ∈ tableWrites tbl ptr strs) :
    (tbl.toNat ≤ x.1.toNat ∧ x.1.toNat + x.2.length ≤ tbl.toNat + 4 * (strs.length + 1)) ∨
      (ptr.toNat ≤ x.1.toNat ∧ x.1.toNat + x.2.length ≤ ptr.toNat + stringsSize strs) := by
  induction strs generalizing tbl ptr with
  | nil =>
    obtain rfl := mem_singleton.1 hx
    exact .inl ⟨le_refl _, le_refl _⟩
  | cons s strs ih =>
    simp only [stringsSize, map_cons, sum_cons, length_cons] at hptr htbl ⊢
    rcases mem_cons.1 hx with rfl | hx
    · right
      simp only [length_append, length_singleton]
      omega
    rcases mem_cons.1 hx with rfl | hx
    · left
      exact ⟨le_refl _, by simp only [wordBytes, length_cons, length_nil]; omega⟩
    · have hnext : (tbl + 4).toNat = tbl.toNat + 4 := by
        rw [toNat_add]
        exact Nat.mod_eq_of_lt (by show tbl.toNat + 4 < _; omega)
      have hnext' : (ptr + ofNat 32 (s.length + 1)).toNat
          = ptr.toNat + (s.length + 1) := toNat_add_ofNat (by omega)
      have hin := ih (by omega) (by simp only [stringsSize]; omega) hx
      simp only [stringsSize] at hin
      omega

/-- The areas as numbers: each starts where the one before it ends. -/
theorem toNat_starts : a.argvStart.toNat = a.argcAddr.toNat + 4 ∧
    a.envpStart.toNat = a.argvStart.toNat + 4 * (a.argv.length + 1) ∧
    a.auxvAddr.toNat = a.envpStart.toNat + 4 * (a.envp.length + 1) ∧
    a.stringsAddr.toNat = a.auxvAddr.toNat + 4 * a.auxvCount ∧
    (a.stringsAddr + ofNat 32 (stringsSize a.argv)).toNat
      = a.stringsAddr.toNat + stringsSize a.argv ∧
    a.stringsAddr.toNat + stringsSize a.argv + stringsSize a.envp ≤ 0x7FFFF000 := by
  obtain ⟨hlo, hhi⟩ := a.argcAddr_bounds
  have habove : a.above
      = 4 + 4 * (a.argv.length + 1) + 4 * (a.envp.length + 1) + 4 * a.auxvCount := rfl
  have hsplit := stringsSize_append a.argv a.envp
  have hargv : a.argvStart.toNat = a.argcAddr.toNat + 4 := by
    rw [argvStart, toNat_add]
    exact Nat.mod_eq_of_lt (by show a.argcAddr.toNat + 4 < _; omega)
  have henvp : a.envpStart.toNat = a.argvStart.toNat + 4 * (a.argv.length + 1) := by
    rw [envpStart, toNat_add, toNat_ofNat]
    omega
  have hauxv : a.auxvAddr.toNat = a.envpStart.toNat + 4 * (a.envp.length + 1) := by
    rw [auxvAddr, toNat_add, toNat_ofNat]
    omega
  have hstr : a.stringsAddr.toNat = a.auxvAddr.toNat + 4 * a.auxvCount := by
    rw [stringsAddr, toNat_add, toNat_ofNat]
    omega
  have hstr' : (a.stringsAddr + ofNat 32 (stringsSize a.argv)).toNat
      = a.stringsAddr.toNat + stringsSize a.argv := toNat_add_ofNat (by omega)
  exact ⟨hargv, henvp, hauxv, hstr, hstr', by omega⟩

/-- The writes of both tables go below the auxiliary vector or to the strings above it. -/
theorem area_of_mem_tables {x : Word × List (BitVec 8)}
    (hx : x ∈ tableWrites a.argvStart a.stringsAddr a.argv ++
      tableWrites a.envpStart (a.stringsAddr + ofNat 32 (stringsSize a.argv)) a.envp) :
    (a.argvStart.toNat ≤ x.1.toNat ∧ x.1.toNat + x.2.length ≤ a.auxvAddr.toNat) ∨
      (a.stringsAddr.toNat ≤ x.1.toNat ∧ x.1.toNat + x.2.length ≤ 0x7FFFF000) := by
  obtain ⟨-, henvp, hauxv, hstr, hstr', hend⟩ := a.toNat_starts
  rcases mem_append.1 hx with hx | hx
  · have hin := area_of_mem_tableWrites (by omega) (by omega) hx
    omega
  · have hin := area_of_mem_tableWrites (by omega) (by omega) hx
    omega

/-- All that is written lies in user space, above the identity map. -/
theorem bounds_of_mem_stackWrites {x : Word × List (BitVec 8)} (hx : x ∈ a.stackWrites) :
    0x2000000 ≤ x.1.toNat ∧ x.1.toNat + x.2.length ≤ 0xC0000000 := by
  obtain ⟨hlo, hhi⟩ := a.argcAddr_bounds
  obtain ⟨hargv, henvp, hauxv, hstr, hstr', hend⟩ := a.toNat_starts
  have hword : ∀ w : Word, (wordBytes w).length = 4 := fun _ => rfl
  rw [stackWrites, cons_append, cons_append] at hx
  rcases mem_cons.1 hx with rfl | hx
  · simp only [hword]
    omega
  rcases mem_append.1 hx with hx | hx
  · have hin := a.area_of_mem_tables hx
    omega
  · cases haux : a.auxv with
    | some ws =>
      rw [haux] at hx
      obtain rfl := mem_singleton.1 hx
      have hws : ws.length = 14 := a.auxv_length ws haux
      simp only [length_flatMap_wordBytes, hws]
      omega
    | none =>
      rw [haux] at hx
      have hbase : a.frameBase.toNat = (a.argcAddr - 16).toNat / 16 * 16 := toNat_and_not_fifteen _
      have hsub : (a.argcAddr - 16).toNat = a.argcAddr.toNat - 16 :=
        toNat_sub_ofNat (k := 16) (by omega)
      have hadd : ∀ k < 16, (a.frameBase + ofNat 32 k).toNat
          = a.frameBase.toNat + k := fun k hk => toNat_add_ofNat (by omega)
      have h4 := hadd 4 (by decide)
      have h8 := hadd 8 (by decide)
      have h12 := hadd 12 (by decide)
      simp only [mem_cons, not_mem_nil, or_false] at hx
      rcases hx with rfl | rfl | rfl | rfl
      · simp only [hword]
        omega
      · simp only [hword]
        change (a.frameBase + 4).toNat = _ at h4
        omega
      · simp only [hword]
        change (a.frameBase + 8).toNat = _ at h8
        omega
      · simp only [hword]
        change (a.frameBase + 12).toNat = _ at h12
        omega

end ExecArgs

namespace Mm

variable {S T : Mm} {held : Frame → Nat} {c : Nat} {d f : Frame} {v : VPage} {w : Word}
  {flags : Flags} {α : Type}

/-- The results of an operation on twins, with what the next one needs. -/
structure Kept (S : Mm) (held : Frame → Nat) (x y : Mm × α) : Prop where
  answer : y.2 = x.2
  twin : Twin clean x.1 y.1
  inv : Inv (· ≤ ·) x.1 held
  dirs : x.1.dirs = S.dirs

theorem kept_mk {S1 T1 : Mm} {a : α} (h : Twin clean S1 T1) (hinv : Inv (· ≤ ·) S1 held)
    (hdirs : S1.dirs = S.dirs) : Kept S held (S1, a) (T1, a) := ⟨rfl, h, hinv, hdirs⟩

theorem Kept.after {S1 : Mm} {x y : Mm × α} (h : Kept S1 held x y)
    (hdirs : S1.dirs = S.dirs) : Kept S held x y :=
  ⟨h.answer, h.twin, h.inv, h.dirs.trans hdirs⟩

theorem Kept.cases {x y : Mm × α} (h : Kept S held x y) :
    ∃ S1 T1 a, x = (S1, a) ∧ y = (T1, a) ∧ Twin clean S1 T1 ∧ Inv (· ≤ ·) S1 held ∧
      S1.dirs = S.dirs :=
  ⟨x.1, y.1, x.2, rfl, Prod.ext rfl h.answer, h.twin, h.inv, h.dirs⟩

/-! ## Ranges -/

/-- Above user space there is nothing to unmap. -/
theorem Inv.unmapAny (h : Inv (· ≤ ·) S held) (hd : d ∈ S.dirs)
    (hv : numKernelPageTables ≤ v.1.val) (c : Nat) :
    Inv (· ≤ ·) (S.unmapUserPage c d v) held ∧ (S.unmapUserPage c d v).dirs = S.dirs := by
  by_cases hu : v.1.IsUser
  · obtain ⟨h', hset⟩ := h.unmapUserPage (countRel_le 0xFFFF) hd hu c
    exact ⟨h', hset.dirs⟩
  · have hpde := h.space.kernelPde hd hu
    rw [kernelPde, dif_neg (not_lt.2 hv)] at hpde
    have hnone : S.getPhysicalFrame d v = none := by
      rw [Mm.getPhysicalFrame, Mm.lookup, hpde]
      rfl
    rw [Mm.unmapUserPage, hnone]
    exact ⟨h, rfl⟩

theorem Twin.unmapRange (hd : d ∈ S.dirs) (c : Nat) {as : List Word}
    (has : ∀ a ∈ as, numKernelPageTables ≤ a.vpage.1.val) (h : Twin clean S T)
    (hinv : Inv (· ≤ ·) S held) :
    Kept S held (S.unmapRange c d as, ()) (T.unmapRange c d as, ()) := by
  induction as generalizing S T with
  | nil => exact kept_mk h hinv rfl
  | cons a as ih =>
    obtain ⟨hinv1, hdirs⟩ := hinv.unmapAny hd (has a mem_cons_self) c
    exact (ih (hdirs ▸ hd) (fun b hb => has b (.tail a hb))
      (h.unmapUserPage hinv hd c a.vpage) hinv1).after hdirs

/-- One page of an anonymous mapping, over whatever was there. -/
theorem Inv.mapUserAny (h : Inv (· ≤ ·) S held) (hd : d ∈ S.dirs) (hv : v.1.IsUser)
    (c : Nat) (writable : Bool) :
    Inv (· ≤ ·) (S.mapUserPage c d v writable true).1 held ∧
      (S.mapUserPage c d v writable true).1.dirs = S.dirs := by
  have hR := countRel_le 0xFFFF
  rw [Mm.mapUserPage]
  obtain hx | ⟨S1, f, hx, hgot⟩ := h.allocateFrame hR c
  · rw [hx]
    exact ⟨h, rfl⟩
  · rw [hx]
    have hdirs1 : S1.dirs = S.dirs := hgot.same.2.1
    rcases hgot.inv.mapAny hgot.unused (hdirs1 ▸ hd) hv (userFlags_present writable)
        (userFlags_user writable) c with
      ⟨S2, hx2, h2, hun⟩ | ⟨S2, hx2, h2, hset⟩
    · simp only [hx2]
      exact ⟨h2, hun.dirs.trans hdirs1⟩
    · simp only [hx2, if_true, zeroFrame_of_pool hgot.pool]
      obtain ⟨hpte, -⟩ := view_eq_some.1
        (show S2.view d v = some _ by rw [hset.view, if_pos ⟨rfl, rfl⟩])
      have h3 := h2.setPage hpte (fun _ => 0)
      rw [Word.frame_entry] at h3
      exact ⟨h3, hset.dirs.trans hdirs1⟩

/-- By induction on the pages; those that were mapped are unmapped again where one fails. -/
theorem Twin.mapRange (hd : d ∈ S.dirs) (c : Nat) (writable : Bool)
    {as : List Word} (mapped : List Word) (has : ∀ a ∈ as, a.vpage.1.IsUser)
    (hmapped : ∀ a ∈ mapped, a.vpage.1.IsUser) (h : Twin clean S T) (hinv : Inv (· ≤ ·) S held) :
    Kept S held (mapRange c d writable true mapped S as)
      (mapRange c d writable true mapped T as) := by
  induction as generalizing S T mapped with
  | nil => exact kept_mk h hinv rfl
  | cons a as ih =>
    have ha := has a mem_cons_self
    obtain ⟨hres, htwin⟩ := h.mapUserPage hinv (countRel_le 0xFFFF) hd c a.vpage writable
    obtain ⟨hinv1, hdirs⟩ := hinv.mapUserAny hd ha c writable
    obtain ⟨S1, T1, b, hx, hy, h1, hinv1, hdirs⟩ :=
      Kept.cases (⟨hres, htwin, hinv1, hdirs⟩ : Kept S held _ _)
    rw [mapRange, mapRange, hx, hy]
    cases b with
    | false =>
      have hk := Twin.unmapRange (hdirs ▸ hd) c (fun x hx => (hmapped x hx).1) h1 hinv1
      exact kept_mk hk.twin hk.inv (hk.dirs.trans hdirs)
    | true =>
      refine (ih (hdirs ▸ hd) _ (fun x hx => has x (.tail a hx)) ?_ h1 hinv1).after hdirs
      intro x hx
      rcases mem_append.1 hx with hx | hx
      · exact hmapped x hx
      · rw [mem_singleton.1 hx]
        exact ha

/-! ## Filled pages -/

/-- A page is taken, filled and mapped. -/
theorem Twin.mapFilled {S1 T1 : Mm} (h : Ready held S S1 T1 f) (hd : d ∈ S.dirs)
    (hv : v.1.IsUser) (hp : flags.present = true) (hu : flags.user = true) (c : Nat) :
    ∃ S2 T2 b, S1.mapPage c d v f flags = (S2, b) ∧ T1.mapPage c d v f flags = (T2, b) ∧
      (b = false → Kept S held (S2.freeFrame c f, ()) (T2.freeFrame c f, ())) ∧
      (b = true → Kept S held (S2, ()) (T2, ()) ∧ (S2.pte d v).isSome ∧
        ∀ v', (S.pte d v').isSome → (S2.pte d v').isSome) := by
  rcases h.mapPage hd hv hp hu c with
    ⟨S2, T2, hx, hy, h2, hinv2, hun⟩ | ⟨S2, T2, hx, hy, h2, hinv2, hset⟩
  · refine ⟨S2, T2, false, hx, hy, fun _ => kept_mk h2 hinv2 hun.dirs, fun hc => ?_⟩
    cases hc
  · have hpte : ∀ v', S2.pte d v' = if v' = v then some (.entry f flags) else S.pte d v' := by
      intro v'
      rw [pte_eq_view, hset.view]
      by_cases hvv : v' = v
      · rw [if_pos ⟨rfl, hvv⟩, if_pos hvv]
        rfl
      · rw [if_neg fun hc => hvv hc.2, if_neg hvv, ← pte_eq_view]
    refine ⟨S2, T2, true, hx, hy, fun hc => ?_,
      fun _ => ⟨kept_mk h2 hinv2 hset.dirs, ?_, fun v' hv' => ?_⟩⟩
    · cases hc
    · rw [hpte, if_pos rfl]
      rfl
    · rw [hpte]
      split
      · rfl
      · exact hv'

/-! ## Segments -/

/-- The page `k` pages after an address. -/
def pageAfter (a : Word) (k : Nat) : VPage := (a + ofNat 32 (4096 * k)).vpage

theorem frame_pageAfter {a : Word} {k : Nat} (h : a.toNat + 4096 * k < 2 ^ 32) :
    (pageAfter a k).1.val * 1024 + (pageAfter a k).2.val = a.toNat / 4096 + k := by
  simp only [pageAfter, Word.vpage, vpageOf, Word.frame, toNat_add, toNat_ofNat]
  omega

/-- As many pages as there are frames do not reach the end of user space. -/
theorem isUser_pageAfter {a : Word} {k : Nat} (hlo : 0x2000000 ≤ a.toNat)
    (hhi : a.toNat < 0x80000000) (hk : k ≤ identityEndFrame - heapEndFrame) :
    (pageAfter a k).1.IsUser := by
  replace hk : k ≤ 5376 := hk
  refine isUser_vpage ?_ ?_
  · rw [toNat_add, toNat_ofNat]
    omega
  · rw [toNat_add, toNat_ofNat]
    omega

/-- There are not more pages than frames. -/
theorem Inv.mapped_le_pool (h : Inv (· ≤ ·) S held) {a : Word} {k : Nat}
    (hk : a.toNat + 4096 * k ≤ 2 ^ 32) (hall : ∀ j < k, (S.pte d (pageAfter a j)).isSome) :
    k ≤ identityEndFrame - heapEndFrame := by
  have hptr : ∀ j < k, ∃ g, S.ptr (.entry d (pageAfter a j)) = some g ∧ g.Pool ∧
      ((S.pte d (pageAfter a j)).elim 0 fun w => w.frame.val) = g.val := by
    intro j hj
    obtain ⟨w, hw⟩ := Option.isSome_iff_exists.1 (hall j hj)
    exact ⟨w.frame, ptr_entry_of_pte hw, h.pool_of_pte hw, by rw [hw]; rfl⟩
  have hcard : (Finset.range k).card ≤ (Finset.Ico heapEndFrame identityEndFrame).card := by
    refine Finset.card_le_card_of_injOn
      (fun j => (S.pte d (pageAfter a j)).elim 0 fun w => w.frame.val) ?_ ?_
    · intro j hj
      obtain ⟨g, -, hpool, hg⟩ := hptr j (Finset.mem_range.1 (Finset.mem_coe.1 hj))
      rw [Finset.coe_Ico]
      dsimp only
      rw [hg]
      exact hpool
    · intro j hj j' hj' he
      have hlt := Finset.mem_range.1 (Finset.mem_coe.1 hj)
      have hlt' := Finset.mem_range.1 (Finset.mem_coe.1 hj')
      obtain ⟨g, hg, -, hval⟩ := hptr j hlt
      obtain ⟨g', hg', -, hval'⟩ := hptr j' hlt'
      obtain rfl : g = g' := Fin.ext (hval.symm.trans (Eq.trans he hval'))
      -- A directory maps a frame at one page only.
      have hpage := h.space.injective hg hg'
      have hnum := frame_pageAfter (a := a) (k := j) (by omega)
      have hnum' := frame_pageAfter (a := a) (k := j') (by omega)
      rw [hpage] at hnum
      omega
  rwa [Finset.card_range, Nat.card_Ico] at hcard

/-- By induction on the pages of the segment. -/
theorem Twin.segmentPages (hp : flags.present = true) (hu : flags.user = true)
    (hd : d ∈ S.dirs) (c : Nat) (file : List (BitVec 8)) {a : Word}
    (hlo : 0x2000000 ≤ a.toNat) (hhi : a.toNat < 0x80000000) {k n : Nat}
    (hfit : a.toNat + 4096 * (k + n) ≤ 2 ^ 32) (off pos rem : Nat)
    (hall : ∀ j < k, (S.pte d (pageAfter a j)).isSome) (h : Twin clean S T)
    (hinv : Inv (· ≤ ·) S held) :
    Kept S held (segmentPages c d flags file S
        ((range' k n).map fun k => a + ofNat 32 (4096 * k)) off pos rem)
      (segmentPages c d flags file T
        ((range' k n).map fun k => a + ofNat 32 (4096 * k)) off pos rem) := by
  -- The pages mapped so far are those before page `k`.
  induction n generalizing S T k off pos rem with
  | zero => exact kept_mk h hinv rfl
  | succ n ih =>
    rw [range'_succ, map_cons, segmentPages, segmentPages]
    rcases h.allocate_cases hinv (countRel_le 0xFFFF) c with
      ⟨hx, hy⟩ | ⟨S1, T1, f, hx, hy, htaken⟩
    · rw [hx, hy]
      exact kept_mk h hinv rfl
    · rw [hx, hy]
      have hf : f ≠ 0 := by
        rintro rfl
        exact absurd htaken.pool.1 (by decide)
      simp only [if_neg hf]
      have hk := hinv.mapped_le_pool (by omega) hall
      have huser : (pageAfter a k).1.IsUser := isUser_pageAfter hlo hhi hk
      obtain ⟨S2, T2, b, hx2, hy2, hfail, hdone⟩ := Twin.mapFilled
        (htaken.cleared.copyToFrame off ((file.drop pos).take (min rem (4096 - off)))) hd
        huser hp hu c
      simp only [pageAfter] at hx2 hy2
      simp only [hx2, hy2]
      cases b with
      | false =>
        obtain ⟨-, ht, hi, hdirs⟩ := hfail rfl
        exact kept_mk ht hi hdirs
      | true =>
        obtain ⟨⟨-, ht, hi, hdirs⟩, hnew, hold⟩ := hdone rfl
        refine (ih (hdirs ▸ hd) (by omega) _ _ _ (fun j hj => ?_) ht hi).after hdirs
        rcases Nat.lt_succ_iff_lt_or_eq.1 hj with hj | rfl
        · exact hold _ (hall j hj)
        · exact hnew

/-- A segment is refused, or its pages are mapped one by one. -/
theorem Twin.mapSegmentStreaming (h : Twin clean S T) (hinv : Inv (· ≤ ·) S held)
    (hd : d ∈ S.dirs) (c : Nat) (ph : Phdr) (seekOk : Bool) (file : List (BitVec 8)) (base : Word) :
    Kept S held (S.mapSegmentStreaming c d ph seekOk file base)
      (T.mapSegmentStreaming c d ph seekOk file base) := by
  simp only [Mm.mapSegmentStreaming]
  split
  · exact kept_mk h hinv rfl
  split
  · exact kept_mk h hinv rfl
  next hrange =>
  split
  · exact kept_mk h hinv rfl
  next hend =>
  split
  · exact kept_mk h hinv rfl
  obtain ⟨hlo, hhi⟩ := not_or.1 hrange
  have hbase : userCodeBase.toNat = 0x08048000 := rfl
  have hlast : userSpaceEnd.toNat = 0x80000000 := rfl
  rw [BitVec.lt_def, hbase] at hlo
  rw [BitVec.le_def, hlast] at hhi
  have hpage := toNat_pageAddrMask (ph.pVaddr + base)
  have hstop := toNat_pageAddrMask
    (ofNat 32 ((ph.pVaddr + base).toNat + ph.pMemsz.toNat + 4095))
  rw [toNat_ofNat] at hstop
  rw [segmentRange, pagesFromTo, range_eq_range']
  exact Twin.segmentPages (userFlags_present _) (userFlags_user _) hd c file (by omega)
    (by omega) (by omega) _ _ _ (fun j hj => absurd hj (Nat.not_lt_zero j)) h hinv

/-- By induction on the segments. -/
theorem Twin.elfLoadSegments (hd : d ∈ S.dirs) (c : Nat) (file : List (BitVec 8))
    (base : Word) (phs : List (Phdr × Bool)) (brkEnd : Word) (h : Twin clean S T)
    (hinv : Inv (· ≤ ·) S held) :
    Kept S held (elfLoadSegments c d file base S phs brkEnd)
      (elfLoadSegments c d file base T phs brkEnd) := by
  induction phs generalizing S T brkEnd with
  | nil => exact kept_mk h hinv rfl
  | cons x phs ih =>
    obtain ⟨ph, seekOk⟩ := x
    obtain ⟨S1, T1, rc, hx, hy, h1, hinv1, hdirs⟩ :=
      (h.mapSegmentStreaming hinv hd c ph seekOk file base).cases
    rw [elfLoadSegments, elfLoadSegments, hx, hy]
    simp only
    split
    · exact kept_mk h1 hinv1 hdirs
    · exact (ih (hdirs ▸ hd) _ h1 hinv1).after hdirs

/-! ## The stack -/

/-- Bytes stored into a page of a process. -/
theorem Inv.copyToFrame (h : Inv (· ≤ ·) S held) (hw : S.pte d v = some w) (off : Nat)
    (bytes : List (BitVec 8)) : Inv (· ≤ ·) (S.copyToFrame w.frame off bytes) held ∧
      (S.copyToFrame w.frame off bytes).dirs = S.dirs := by
  have heq : S.copyToFrame w.frame off bytes
      = S.setFrame w.frame (overlay (S.mem w.frame) off bytes) :=
    if_pos (h.pool_of_pte hw).2
  rw [heq]
  exact ⟨h.setPage hw _, rfl⟩

/-- By induction on the fuel: each round copies into one page. -/
theorem Twin.copyToUserPhys (hd : d ∈ S.dirs) (fuel : Nat) {addr : Word}
    {bytes : List (BitVec 8)} (hlo : 0x2000000 ≤ addr.toNat)
    (hhi : addr.toNat + bytes.length ≤ 0xC0000000) (h : Twin clean S T)
    (hinv : Inv (· ≤ ·) S held) :
    Kept S held (copyToUserPhys d fuel S addr bytes)
      (copyToUserPhys d fuel T addr bytes) := by
  induction fuel generalizing S T addr bytes with
  | zero => exact kept_mk h hinv rfl
  | succ fuel ih =>
    rw [copyToUserPhys, copyToUserPhys, h.lookup hinv unreferenced_clean hd]
    split
    · exact kept_mk h hinv rfl
    next hne =>
    have hpos : 0 < bytes.length := length_pos_iff.2 hne
    have huser : addr.vpage.1.IsUser := isUser_vpage hlo (by omega)
    rw [lookup_eq_pte hd huser]
    cases hw : S.pte d addr.vpage with
    | none => exact kept_mk h hinv rfl
    | some w =>
      simp only
      split
      · exact kept_mk h hinv rfl
      · obtain ⟨hinv1, hdirs⟩ := hinv.copyToFrame hw (addr.toNat % 4096)
          (bytes.take (min (4096 - addr.toNat % 4096) bytes.length))
        refine (ih (hdirs ▸ hd) ?_ ?_ (h.copyToFrame (h.mem_page hinv unreferenced_clean hw)
          _ _) hinv1).after hdirs
        · rw [toNat_add, toNat_ofNat]
          omega
        · rw [toNat_add, toNat_ofNat, length_drop]
          omega

/-- By induction on the writes. -/
theorem Twin.writeStack (hd : d ∈ S.dirs) (ws : List (Word × List (BitVec 8)))
    (hws : ∀ x ∈ ws, 0x2000000 ≤ x.1.toNat ∧ x.1.toNat + x.2.length ≤ 0xC0000000)
    (h : Twin clean S T) (hinv : Inv (· ≤ ·) S held) :
    Kept S held (writeStack d S ws) (writeStack d T ws) := by
  induction ws generalizing S T with
  | nil => exact kept_mk h hinv rfl
  | cons x ws ih =>
    obtain ⟨addr, bytes⟩ := x
    obtain ⟨hlo, hhi⟩ := hws (addr, bytes) mem_cons_self
    obtain ⟨S1, T1, rc, hx, hy, h1, hinv1, hdirs⟩ :=
      (Twin.copyToUserPhys hd bytes.length hlo hhi h hinv).cases
    rw [writeStack, writeStack, hx, hy]
    simp only
    split
    · exact kept_mk h1 hinv1 hdirs
    · exact (ih (hdirs ▸ hd) (fun y hy => hws y (.tail _ hy)) h1 hinv1).after hdirs

end Mm

end UnixOs
