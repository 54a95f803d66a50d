import UnixOs.Fs.Vfs

/-!
# Absolute paths in a buffer (vfs_fd.c, vfs_path.c)

Both files have a function that puts a relative path behind the current directory, byte by
byte and with the bounds `bufsz - 1` and `bufsz - 2`. What the loops leave in the buffer is
the beginning of it and the old bytes behind.

- `absPath_agree`: the two functions agree, and answer `0` exactly if the path fits;
- `makeAbsPath_eq`: `vfs_open` uses the first one with 512 bytes.
-/

namespace UnixOs.PathBuffer

open Function List Errno

/-- `while (*src && i < bound) buf[i++] = *src++`: the buffer, `i` and the rest of `src`. -/
def copy (bound : Nat) : List UInt8 → Nat → (Nat → UInt8) → (Nat → UInt8) × Nat × List UInt8
  | [], i, buf => (buf, i, [])
  | c :: src, i, buf =>
    if i < bound then copy bound src (i + 1) (update buf i c) else (buf, i, c :: src)

/-- The last loop with what follows it: the NUL, or the error when the path does not fit. -/
def copyLast (bufsz : Nat) (path : List UInt8) (i : Nat) (buf : Nat → UInt8) :
    (Nat → UInt8) × Int :=
  let (buf, i, rest) := copy (bufsz - 1) path i buf
  if rest ≠ [] then (buf, -ENAMETOOLONG) else (update buf i 0, 0)

/-- `vfs_make_abs_path` (vfs_fd.c:78). `pathname` is `none` for a null pointer and `cwd` is `[]`
without a current process. -/
def vfsMakeAbsPath (pathname : Option (List UInt8)) (cwd : List UInt8) (buf : Nat → UInt8)
    (bufsz : Nat) : (Nat → UInt8) × Int :=
  match pathname with
  | none => (buf, -EINVAL)
  | some pathname =>
    if bufsz < 2 then (buf, -EINVAL)
    else if pathname.head? = some slash then copyLast bufsz pathname 0 buf
    else if cwd = [] then copyLast bufsz pathname 1 (update buf 0 slash)
    else
      let (buf, i, rest) := copy (bufsz - 2) cwd 0 buf
      if rest ≠ [] then (buf, -ENAMETOOLONG)
      else if i = 0 ∨ buf (i - 1) ≠ slash then
        if bufsz - 2 ≤ i then (buf, -ENAMETOOLONG)
        else copyLast bufsz pathname (i + 1) (update buf i slash)
      else copyLast bufsz pathname i buf

/-- `make_abs_path` (vfs_path.c:33). -/
def makeAbsPath (path : Option (List UInt8)) (cwd : List UInt8) (buf : Nat → UInt8)
    (bufsz : Nat) : (Nat → UInt8) × Int :=
  match path with
  | none => (buf, -EINVAL)
  | some path =>
    if bufsz < 2 then (buf, -EINVAL)
    else if path.head? = some slash then copyLast bufsz path 0 buf
    else if cwd = [] then copyLast bufsz path 1 (update buf 0 slash)
    else
      let (buf, i, rest) := copy (bufsz - 2) cwd 0 buf
      if rest ≠ [] then (buf, -ENAMETOOLONG)
      else if i = 0 ∨ buf (i - 1) ≠ slash then
        if bufsz - 2 ≤ i then (buf, -ENAMETOOLONG)
        else copyLast bufsz path (i + 1) (update buf i slash)
      else copyLast bufsz path i buf

/-- The path that is asked for. -/
def wholePath (path cwd : List UInt8) : List UInt8 :=
  if path.head? = some slash then path
  else if cwd.getLast? = some slash then cwd ++ path else cwd ++ slash :: path

/-- `xs` at the beginning of the buffer. -/
def stored (buf : Nat → UInt8) (xs : List UInt8) : Nat → UInt8 := fun j => xs.getD j (buf j)

/-- The path and its NUL fit into `n` bytes. The loop over the current directory keeps one byte
more free, which matters when the path is empty. -/
def Fits (path cwd : List UInt8) (n : Nat) : Prop :=
  (wholePath path cwd).length + (if path = [] ∧ cwd ≠ [] then 2 else 1) ≤ n

instance (path cwd : List UInt8) (n : Nat) : Decidable (Fits path cwd n) :=
  inferInstanceAs (Decidable (_ ≤ _))

/-- The buffer has changed in its first `n` bytes only. The result is `0` with the string
`whole` there if it `fits`, and otherwise the path is too long. -/
def Built (buf : Nat → UInt8) (n : Nat) (whole : List UInt8) (fits : Prop)
    (r : (Nat → UInt8) × Int) : Prop :=
  ∃ xs, r.1 = stored buf xs ∧ xs.length ≤ n ∧
    (fits ∧ r.2 = 0 ∧ xs = whole ++ [0] ∨ ¬ fits ∧ r.2 = -ENAMETOOLONG)

variable {buf : Nat → UInt8} {path cwd : List UInt8} {n : Nat}

theorem update_stored (xs : List UInt8) (c : UInt8) :
    update (stored buf xs) xs.length c = stored buf (xs ++ [c]) := by
  funext j
  by_cases hj : j = xs.length
  · simp [hj, stored]
  · simp only [update_of_ne hj, stored, getD_eq_getElem?_getD, getElem?_append]
    split
    · rfl
    · rw [getElem?_eq_none (by omega), getElem?_eq_none (by simp; omega)]

/-- The loop copies as far as the bound, and no byte is lost on the way. -/
theorem copy_stored (buf : Nat → UInt8) (bound : Nat) (src xs : List UInt8) :
    ∃ done rest, src = done ++ rest ∧ copy bound src xs.length (stored buf xs) =
      (stored buf (xs ++ done), (xs ++ done).length, rest) ∧
    (xs.length ≤ bound → (xs ++ done).length ≤ bound ∧
      (rest ≠ [] → (xs ++ done).length = bound)) := by
  induction src generalizing xs with
  | nil => exact ⟨[], [], rfl, by simp [copy]⟩
  | cons c src ih =>
    rw [copy]
    split
    · next hlt =>
      obtain ⟨done, rest, rfl, heq, hle⟩ := ih (xs ++ [c])
      rw [append_assoc, length_append] at heq hle
      rw [update_stored]
      exact ⟨c :: done, rest, rfl, heq, fun _ => hle hlt⟩
    · next hge => exact ⟨[], c :: src, rfl, by simp, fun hle => by simp; omega⟩

theorem Built.congr {whole : List UInt8} {fits fits' : Prop} {r : (Nat → UInt8) × Int}
    (h : Built buf n whole fits r) (hfits : fits ↔ fits') : Built buf n whole fits' r :=
  propext hfits ▸ h

/-- The last part fits, with its terminator, or is refused. -/
theorem built_copyLast (buf : Nat → UInt8) (path xs : List UInt8) (hlen : xs.length < n) :
    Built buf n (xs ++ path) ((xs ++ path).length < n)
      (copyLast n path xs.length (stored buf xs)) := by
  obtain ⟨done, rest, rfl, heq, hle⟩ := copy_stored buf (n - 1) path xs
  obtain ⟨hle, hfull⟩ := hle (by omega)
  rw [copyLast, heq]
  dsimp only
  split
  · next hrest =>
    refine ⟨_, rfl, by omega, .inr ⟨?_, rfl⟩⟩
    have hpos := length_pos_iff.2 hrest
    rw [← append_assoc, length_append, hfull hrest]
    omega
  · next hrest =>
    rw [not_not.1 hrest, append_nil, update_stored]
    exact ⟨_, rfl, by rw [length_append, length_singleton]; omega, .inl ⟨by omega, rfl, rfl⟩⟩

theorem built_copyLast_slash (buf : Nat → UInt8) (path xs : List UInt8) (hlen : xs.length + 1 < n) :
    Built buf n (xs ++ slash :: path) ((xs ++ slash :: path).length < n)
      (copyLast n path (xs.length + 1) (update (stored buf xs) xs.length slash)) := by
  have h : _ → Built buf n _ _ (copyLast n path _ _) :=
    built_copyLast buf path (xs ++ [slash])
  rw [← update_stored, append_assoc, length_append] at h
  exact h hlen

/-- A path that is not empty needs its own bytes and the NUL. -/
theorem fits_iff (h : path ≠ [] ∨ cwd = []) :
    Fits path cwd n ↔ (wholePath path cwd).length < n := by
  rw [Fits, if_neg (by tauto)]
  exact Nat.succ_le_iff

/-- Behind a current directory, the path needs room for it and for the slash. -/
theorem fits_cwd (habs : path.head? ≠ some slash) (hcwd : cwd ≠ []) : Fits path cwd n ↔
    cwd.length + path.length + (if cwd.getLast? = some slash then 0 else 1) +
      (if path.length = 0 then 2 else 1) ≤ n := by
  have hwhole : (wholePath path cwd).length = cwd.length + path.length +
      if cwd.getLast? = some slash then 0 else 1 := by
    rw [wholePath, if_neg habs]
    split
    · simp
    · simp
      omega
  simp only [Fits, hwhole, length_eq_zero_iff, ne_eq, hcwd, not_false_eq_true, and_true]

/-- The whole path is built if it fits; otherwise the code says that it is too long. -/
theorem built_vfsMakeAbsPath (path cwd : List UInt8) (buf : Nat → UInt8) (n : Nat) :
    Built buf (n + 2) (wholePath path cwd) (Fits path cwd (n + 2))
      (vfsMakeAbsPath (some path) cwd buf (n + 2)) := by
  rw [vfsMakeAbsPath, if_neg (by omega)]
  by_cases habs : path.head? = some slash
  -- an absolute path is copied as it is
  · have hpath : path ≠ [] := fun h => by rw [h] at habs; cases habs
    rw [if_pos habs, fits_iff (.inl hpath), wholePath, if_pos habs]
    exact built_copyLast buf path [] (Nat.zero_lt_succ _)
  rw [if_neg habs]
  obtain rfl | hcwd := eq_or_ne cwd []
  -- without a working directory the path comes behind a slash
  · rw [fits_iff (.inr rfl), wholePath, if_neg habs]
    exact built_copyLast_slash buf path [] (by simp)
  obtain ⟨done, rest, hsrc, heq, hle⟩ := copy_stored buf n cwd []
  have heq : copy (n + 2 - 2) cwd 0 buf = (stored buf done, done.length, rest) := heq
  obtain ⟨hle, hfull⟩ : done.length ≤ n ∧ (rest ≠ [] → done.length = n) := hle n.zero_le
  have hlen : cwd.length = done.length + rest.length := by rw [hsrc, length_append]
  rw [if_neg hcwd, heq]
  dsimp only
  have hfits := fits_cwd (n := n + 2) habs hcwd
  -- all of the working directory fits, or the buffer is full before its end
  by_cases hrest : rest = []
  · rw [hrest, append_nil] at hsrc
    subst hsrc hrest
    have hpos := length_pos_iff.2 hcwd
    have hlast : (cwd.length = 0 ∨ stored buf cwd (cwd.length - 1) ≠ slash) ↔
        ¬ cwd.getLast? = some slash := by
      rw [getLast?_eq_getElem?, stored, getD_eq_getElem?_getD, getElem?_eq_getElem (by omega),
        Option.some_inj, or_iff_right hpos.ne']
      rfl
    rw [if_neg (not_not.2 rfl)]
    by_cases hslash : cwd.getLast? = some slash
    -- it ends in a slash, and no second one is added
    · have hb := built_copyLast (n := n + 2) buf path cwd (by omega)
      rw [if_pos hslash] at hfits
      rw [if_neg (mt hlast.1 (not_not.2 hslash)), show wholePath path cwd = cwd ++ path by
        rw [wholePath, if_neg habs, if_pos hslash]]
      refine hb.congr ?_
      rw [hfits, length_append]
      split <;> omega
    · rw [if_neg hslash] at hfits
      rw [if_pos (hlast.2 hslash)]
      split
      -- there is no room for the slash
      · refine ⟨_, rfl, by omega, .inr ⟨?_, rfl⟩⟩
        rw [hfits]
        split <;> omega
      · have hb := built_copyLast_slash (n := n + 2) buf path cwd (by omega)
        rw [show wholePath path cwd = cwd ++ slash :: path by
          rw [wholePath, if_neg habs, if_neg hslash]]
        refine hb.congr ?_
        rw [hfits, length_append, length_cons]
        split <;> omega
  · have hpos := length_pos_iff.2 hrest
    have hfull := hfull hrest
    rw [if_pos hrest]
    refine ⟨_, rfl, by omega, .inr ⟨?_, rfl⟩⟩
    rw [hfits]
    split <;> split <;> omega

/-- **The two path builders agree**: they build the whole path if it fits, and say that it is
too long otherwise. -/
theorem absPath_agree (path cwd : List UInt8) (buf : Nat → UInt8) (n : Nat) :
    makeAbsPath (some path) cwd buf (n + 2) = vfsMakeAbsPath (some path) cwd buf (n + 2) ∧
    Built buf (n + 2) (wholePath path cwd) (Fits path cwd (n + 2))
      (vfsMakeAbsPath (some path) cwd buf (n + 2)) :=
  ⟨rfl, built_vfsMakeAbsPath path cwd buf n⟩

/-- `makeAbsPath` of `vfs_open` is `vfs_make_abs_path` with a buffer of 512 bytes. -/
theorem makeAbsPath_eq (path cwd : List UInt8) (buf : Nat → UInt8) :
    UnixOs.makeAbsPath cwd path =
      if (vfsMakeAbsPath (some path) cwd buf 512).2 = 0 then .ok (wholePath path cwd)
      else .error (vfsMakeAbsPath (some path) cwd buf 512).2 := by
  have hcode : (vfsMakeAbsPath (some path) cwd buf 512).2 =
      if Fits path cwd 512 then 0 else -ENAMETOOLONG := by
    obtain ⟨xs, -, -, ⟨hfits, hrc, -⟩ | ⟨hfits, hrc⟩⟩ := built_vfsMakeAbsPath path cwd buf 510
    · rw [hrc, if_pos hfits]
    · rw [hrc, if_neg hfits]
  suffices h : UnixOs.makeAbsPath cwd path =
      if Fits path cwd 512 then .ok (wholePath path cwd) else .error (-ENAMETOOLONG) by
    rw [h, hcode]
    split
    · rw [if_pos rfl]
    · rw [if_neg (by decide)]
  rw [UnixOs.makeAbsPath]
  by_cases habs : path.head? = some slash
  · have hpath : path ≠ [] := fun h => by rw [h] at habs; cases habs
    simp only [habs, fits_iff (.inl hpath), wholePath, if_true, Nat.lt_succ_iff]
  by_cases hcwd : cwd = []
  · subst hcwd
    have hfits : Fits path [] 512 ↔ path.length ≤ 510 := by
      rw [fits_iff (.inr rfl), wholePath, if_neg habs]
      simp [Nat.lt_succ_iff]
    simp only [habs, hfits, wholePath, if_true, if_false]
    rfl
  simp only [habs, hcwd, fits_cwd habs hcwd, wholePath, if_false]
  by_cases hslash : cwd.getLast? = some slash
  · simp only [hslash, if_true]
    grind
  · simp only [hslash, if_false]
    grind

end UnixOs.PathBuffer
