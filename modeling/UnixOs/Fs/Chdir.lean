import UnixOs.Fs.MountTable

/-!
# The working directory (vfs_path.c)

A process keeps its working directory as text, and relative paths are put behind it. While
the text is whole, it leads to the directory that `vfs_chdir` found. But `vfs_chdir` finds
the directory by up to 511 bytes and keeps 255: no name may be lost with the rest
(`startsAt_of_whole`).
-/

namespace UnixOs

open List Machine Errno

def Errno.ENOSYS : Int := 38

namespace Vfs

/-- The argument of a `vfs_chdir` (`none` is a null pointer) and what the file systems answer
in it: `ops->resolve`, and the mode that `ops->stat` finds, where there is such a function. -/
structure ChdirCall where
  path : Option FileName
  res : Lookup
  stat : Nat → Option (Nat → Option Nat)

/-- `vfs_chdir` (vfs_path.c:320) up to the copy: the absolute path and its directory. -/
def vfsChdir (mounts : List Mount) (cwd : FileName) (a : ChdirCall) :
    Except Int (FileName × Mount × Nat) :=
  match a.path with
  | none => .error (-EINVAL)
  | some path =>
    match makeAbsPath cwd path with
    | .error rc => .error rc
    | .ok abs =>
      match resolvePath mounts a.res abs with
      | .error rc => .error rc
      | .ok (m, i) =>
        match a.stat m.fs with
        | none => .error (-ENOSYS)
        | some stat =>
          match stat i with
          | none => .error (-ENOENT)
          | some mode =>
            if mode &&& 0o170000 ≠ 0o040000 then .error (-ENOTDIR) else .ok (abs, m, i)

/-- What a successful call found, and in which file systems. -/
structure Found where
  abs : FileName
  mount : Mount
  inode : Nat
  res : Lookup

/-- `cwd` of the current process, and what the most recent successful call found. -/
structure Cwd where
  text : FileName
  found : Option Found

namespace Cwd

/-- `kstrncpy(cur->cwd, abs, sizeof(cur->cwd))` for the 256 bytes of `cwd`. -/
def keep (abs : FileName) : FileName := abs.take 255

def chdir (mounts : List Mount) (s : Cwd) (a : ChdirCall) : Cwd :=
  match vfsChdir mounts s.text a with
  | .error _ => s
  | .ok (abs, m, i) => ⟨keep abs, some ⟨abs, m, i, a.res⟩⟩

/-- A process as it is created. -/
def init : Cwd := ⟨[slash], none⟩

/-- The process after some calls, for the mount table after others. -/
def after (ms : List MountCall) (calls : List ChdirCall) : Cwd :=
  run (chdir (mountTable ms)) init calls

end Cwd

/-- Every directory on a path still has the next one under its name. -/
def Found.Stays (f : Found) (res : Lookup) : Prop :=
  ∀ l c l', components (f.abs.drop f.mount.target.length) = l ++ c :: l' →
    res f.mount.fs (walk (f.res f.mount.fs) f.mount.root l) c
      = f.res f.mount.fs (walk (f.res f.mount.fs) f.mount.root l) c

/-- The text leads to an inode, and a relative path is walked from there, unless it goes
through a mount point further down. -/
def StartsAt (mounts : List Mount) (res : Lookup) (text : FileName) (m : Mount) (i : Nat) : Prop :=
  resolvePath mounts res text = .ok (m, i) ∧
    ∀ path abs m', path.head? ≠ some slash → makeAbsPath text path = .ok abs →
      resolveMount mounts abs = some m' →
        text.length < m'.target.length ∨ m' = m ∧
          walkComponents (res m.fs) m.root [] (abs.drop m.target.length)
            = walk (res m.fs) i (components path)

variable {mounts : List Mount} {m m' : Mount} {i : Nat} {text path abs : FileName} {res : Lookup}

/-! ## The text behind a successful call -/

/-- The text that is kept is the one that was resolved. -/
theorem vfsChdir_ok {cwd : FileName} {a : ChdirCall} (h : vfsChdir mounts cwd a = .ok (abs, m, i)) :
    resolvePath mounts a.res abs = .ok (m, i) := by
  dsimp only [vfsChdir] at h
  split at h
  · cases h
  split at h
  · cases h
  split at h
  · cases h
  next hres =>
  split at h
  · cases h
  split at h
  · cases h
  split at h
  · cases h
  · obtain ⟨rfl, hmi⟩ := Prod.mk.inj (Except.ok.inj h)
    rw [hres, hmi]

/-- The text is the beginning of a path that led to the directory. -/
def Cwd.Inv (mounts : List Mount) (s : Cwd) : Prop :=
  ∀ f, s.found = some f → s.text = Cwd.keep f.abs ∧
    resolvePath mounts f.res f.abs = .ok (f.mount, f.inode)

theorem Cwd.Inv.chdir {s : Cwd} (h : s.Inv mounts) (a : ChdirCall) :
    (s.chdir mounts a).Inv mounts := by
  rw [Cwd.chdir]
  split
  · exact h
  · next hok =>
    intro f hf
    cases hf
    exact ⟨rfl, vfsChdir_ok hok⟩

theorem Cwd.inv_after (ms : List MountCall) (calls : List ChdirCall) :
    (Cwd.after ms calls).Inv (mountTable ms) := by
  have hstep : ∀ s a, Cwd.Inv (mountTable ms) s →
      (Cwd.chdir (mountTable ms) s a).Inv (mountTable ms) :=
    fun _ a h => h.chdir a
  refine run_always hstep (fun f hf => ?_) calls
  cases hf

/-! ## The walk from the directory -/

/-- A walk depends only on the lookups that it makes. -/
theorem walk_congr {r r' : Nat → FileName → Nat} {cur : Nat} {cs : List FileName}
    (h : ∀ l c l', cs = l ++ c :: l' → r' (walk r cur l) c = r (walk r cur l) c) :
    walk r' cur cs = walk r cur cs := by
  induction cs generalizing cur with
  | nil => rfl
  | cons c cs ih =>
    have hone : resolveOne r' cur c = resolveOne r cur c := by
      have hc : r' cur c = r cur c := h [] c cs rfl
      rw [resolveOne, resolveOne, hc]
    rw [walk, walk, hone]
    split
    · rfl
    · next hne =>
      refine ih fun l d l' hl => ?_
      have hd := h (c :: l) d l' (by rw [hl, cons_append])
      rwa [walk, if_neg hne] at hd

theorem Found.Stays.resolves {f : Found} (h : f.Stays res)
    (hres : resolvePath mounts f.res f.abs = .ok (f.mount, f.inode)) :
    resolvePath mounts res f.abs = .ok (f.mount, f.inode) := by
  obtain ⟨hhead, hsel, hne, hwalk⟩ := resolvePath_eq_ok_iff.1 hres
  refine resolvePath_eq_ok_iff.2 ⟨hhead, hsel, hne, ?_⟩
  rw [walkComponents_eq] at hwalk ⊢
  exact (walk_congr h).trans hwalk

/-- A relative path stands behind the text and one slash. -/
theorem makeAbsPath_relative (hhead : text.head? = some slash) (hrel : path.head? ≠ some slash)
    (h : makeAbsPath text path = .ok abs) :
    ∃ a, abs = a ++ slash :: path ∧ (text = a ∨ text = a ++ [slash]) := by
  have hne : text ≠ [] := by
    rintro rfl
    cases hhead
  rw [makeAbsPath, if_neg hrel, if_neg hne] at h
  split at h
  · cases h
  split at h
  · cases h
  have habs : abs = (if text.getLast? = some slash then text else text ++ [slash]) ++ path := by
    dsimp only at h
    generalize (if text.getLast? = some slash then text else text ++ [slash]) = base at h ⊢
    split at h
    · exact (Except.ok.inj h).symm
    · cases h
  rw [habs]
  split
  · next hlast =>
    obtain ⟨a, rfl⟩ := getLast?_eq_some_iff.1 hlast
    exact ⟨a, by rw [append_assoc, singleton_append], .inr rfl⟩
  · exact ⟨text, by rw [append_assoc, singleton_append], .inl rfl⟩

theorem prefix_joined {a : FileName} (htext : text = a ∨ text = a ++ [slash]) (path : FileName) :
    text <+: a ++ slash :: path := by
  obtain rfl | rfl := htext
  · exact ⟨slash :: path, rfl⟩
  · exact ⟨path, by rw [append_assoc, singleton_append]⟩

/-- A target that is not longer than the text matches the text and what stands behind it
alike. -/
theorem matches_joined_iff {a : FileName} (htext : text = a ∨ text = a ++ [slash])
    (hlen : m.target.length ≤ text.length) : Matches m (a ++ slash :: path) ↔ Matches m text := by
  have hpre := prefix_joined htext path
  obtain hroot | ⟨-, hlast⟩ := target_cases m
  · exact iff_of_true (.inl hroot) (.inl hroot)
  have hiff : m.target <+: a ++ slash :: path ↔ m.target <+: text :=
    ⟨fun h => prefix_of_prefix_length_le h hpre hlen, fun h => h.trans hpre⟩
  refine or_congr_right ((and_congr_left' hiff).trans (and_congr_right fun hp => ?_))
  obtain hlt | heq := Nat.lt_or_eq_of_le hlen
  · obtain ⟨rest, hrest⟩ := hpre
    rw [← hrest, getElem?_append_left hlt]
  · -- the target is the text, which then does not end with a slash
    have hall : m.target = text := hp.eq_of_length heq
    obtain rfl | rfl := htext
    · rw [heq]
      exact iff_of_true (.inr (by simp)) (.inl (by simp))
    · exact absurd (hall ▸ getLast?_concat) hlast

/-- The mount of a path behind the text is that of the text, or its mount point is further
down. -/
theorem resolveMount_joined {ms : List MountCall} {a : FileName}
    (htext : text = a ∨ text = a ++ [slash]) (hhead : text.head? = some slash)
    (hsel : resolveMount (mountTable ms) text = some m)
    (hsel' : resolveMount (mountTable ms) (a ++ slash :: path) = some m') :
    text.length < m'.target.length ∨ m' = m := by
  refine (Nat.lt_or_ge text.length m'.target.length).imp_right fun hlen' => ?_
  have hm := matches_of_resolveMount hsel
  have hpre := prefix_of_matches hhead hm
  have hmj : Matches m (a ++ slash :: path) := (matches_joined_iff htext hpre.length_le).2 hm
  have hm' := (matches_joined_iff htext hlen').1 (matches_of_resolveMount hsel')
  -- both match both paths, and each is the longest for one of them
  obtain ⟨hmem, hlong⟩ := resolveMount_spec hsel
  obtain ⟨hmem', hlong'⟩ := resolveMount_spec hsel'
  exact eq_of_matches ms hhead hmem' hmem hm' hm
    (le_antisymm (hlong m' hmem' hm') (hlong' m hmem hmj))

/-- A text that resolves is where relative paths start from. -/
theorem startsAt_of_resolves {ms : List MountCall}
    (h : resolvePath (mountTable ms) res text = .ok (m, i)) :
    StartsAt (mountTable ms) res text m i := by
  obtain ⟨hhead, hsel, hne, hwalk⟩ := resolvePath_eq_ok_iff.1 h
  refine ⟨h, fun path abs m' hrel habs hsel' => ?_⟩
  obtain ⟨a, rfl, htext⟩ := makeAbsPath_relative hhead hrel habs
  refine (resolveMount_joined htext hhead hsel hsel').imp_right fun heq => ⟨heq, ?_⟩
  have hlen := (prefix_of_matches hhead (matches_of_resolveMount hsel)).length_le
  have hcut : components (text.drop m.target.length) = components (a.drop m.target.length) ∧
      m.target.length ≤ a.length + 1 := by
    obtain rfl | rfl := htext
    · exact ⟨rfl, by omega⟩
    · rw [length_append, length_singleton] at hlen
      rw [components_drop hlen, components_nil, append_nil]
      exact ⟨rfl, hlen⟩
  rw [walkComponents_eq] at hwalk ⊢
  have hw : walk (res m.fs) m.root (components (a.drop m.target.length)) = i := hcut.1 ▸ hwalk
  show walk _ _ (components _) = _
  rw [components_drop hcut.2, walk_append m.root_ne, hw, if_neg hne]

/-! ## What is kept of a path -/

/-- The names that a text goes through; `.` leads nowhere else. -/
def names (text : FileName) : List FileName := (components text).filter (· ≠ [dot])

/-- Behind the mount point the bytes that are kept have all names of the path: what is cut off are
slashes and `.`, or bytes of a name that no walk looks at. -/
def Found.Whole (f : Found) : Prop :=
  names ((Cwd.keep f.abs).drop f.mount.target.length) = names (f.abs.drop f.mount.target.length)

instance (f : Found) : Decidable f.Whole := inferInstanceAs (Decidable (_ = _))

theorem Found.whole_of_fits {f : Found} (h : f.abs.length ≤ 255) : f.Whole := by
  rw [Found.Whole, Cwd.keep, take_of_length_le h]

theorem walk_names {r : Nat → FileName → Nat} {cur : Nat} (hcur : cur ≠ 0) (cs : List FileName) :
    walk r cur (cs.filter (· ≠ [dot])) = walk r cur cs := by
  induction cs generalizing cur with
  | nil => rfl
  | cons c cs ih =>
    by_cases hdot : c = [dot]
    · have hstay : resolveOne r cur c = cur := if_pos hdot
      rw [filter_cons_of_neg (by simpa using hdot), walk, hstay, if_neg hcur]
      exact ih hcur
    · rw [filter_cons_of_pos (by simpa using hdot), walk, walk]
      split
      · rfl
      · next hne => exact ih hne

/-- A target has less than 64 bytes, so the mount of a path is found in what is kept. -/
theorem resolveMount_keep (mounts : List Mount) (abs : FileName) :
    resolveMount mounts (Cwd.keep abs) = resolveMount mounts abs := by
  have hlen (m : Mount) : mountPrefixLen m.target (Cwd.keep abs) = mountPrefixLen m.target abs := by
    obtain ⟨-, hshort, -⟩ := of_decide_eq_true m.valid
    have hpre : m.target <+: abs.take 255 ↔ m.target <+: abs :=
      prefix_take_iff.trans (and_iff_left (by omega))
    simp only [mountPrefixLen, Cwd.keep, hpre,
      getElem?_take_of_lt (show m.target.length < 255 by omega)]
  have hbetter : betterMount (Cwd.keep abs) = betterMount abs := by
    funext best m
    rw [betterMount, betterMount, hlen]
  rw [resolveMount, resolveMount, hbetter]

theorem Found.Whole.resolves {f : Found} (h : f.Whole)
    (hres : resolvePath mounts res f.abs = .ok (f.mount, f.inode)) :
    resolvePath mounts res (Cwd.keep f.abs) = .ok (f.mount, f.inode) := by
  obtain ⟨hhead, hsel, hne, hwalk⟩ := resolvePath_eq_ok_iff.1 hres
  refine resolvePath_eq_ok_iff.2 ⟨?_, (resolveMount_keep mounts f.abs).trans hsel, hne, ?_⟩
  · rw [Cwd.keep, head?_take, if_neg (by decide)]
    exact hhead
  · rw [walkComponents_eq] at hwalk ⊢
    rw [← hwalk, ← walk_names f.mount.root_ne, ← walk_names f.mount.root_ne (componentsFrom _ _)]
    exact congrArg _ h

/-- **The working directory.** After any calls, the directory of the most recent successful one is
where relative paths start, if no name of its path is lost with the bytes that are not kept. -/
theorem startsAt_of_whole (ms : List MountCall) (calls : List ChdirCall) {f : Found}
    (hf : (Cwd.after ms calls).found = some f) (hstays : f.Stays res) (hwhole : f.Whole) :
    StartsAt (mountTable ms) res (Cwd.after ms calls).text f.mount f.inode := by
  obtain ⟨htext, hres⟩ := Cwd.inv_after ms calls f hf
  rw [htext]
  exact startsAt_of_resolves (hwhole.resolves (hstays.resolves hres))

/-! A tree in which every directory has one entry, with a name of 60 bytes; `chdir` goes down
three levels at a time. -/

def deepName : FileName := replicate 60 0x64

def deepCall : ChdirCall where
  path := some ((replicate 3 (deepName ++ [slash])).flatten)
  res := fun _ cur name => if name = deepName then cur + 1 else 0
  stat := fun _ => some fun _ => some 0o040755

/-- The second call finds the directory by 367 bytes, and what is kept of them ends within a
name. -/
theorem deepCall_twice_lost :
    (Cwd.after bootMounts [deepCall, deepCall]).found.map (·.inode) = some (ramfsRootIno + 6) ∧
    resolvePath (mountTable bootMounts) deepCall.res
      (Cwd.after bootMounts [deepCall, deepCall]).text = .error (-ENOENT) := by
  decide +kernel

/-- In the same tree, with `..` as well. -/
def climbCall (path : FileName) : ChdirCall where
  path := some path
  res := fun _ cur name =>
    if name = deepName then cur + 1 else if name = [dot, dot] then cur - 1 else 0
  stat := fun _ => some fun _ => some 0o040755

/-- Down two levels by an absolute path, then up and down again. -/
def climbRun : List ChdirCall :=
  [climbCall (slash :: deepName ++ slash :: deepName),
    climbCall ([dot, dot] ++ slash :: deepName ++ [slash, dot])]

/-- `././…` with 80 bytes. -/
def dotsCall : ChdirCall := climbCall (replicate 40 [dot, slash]).flatten

/-- What `dotsCall` finds then, by a path of 269 bytes. -/
def dotsFound : Found where
  abs := (Cwd.after bootMounts climbRun).text ++ slash :: (replicate 40 [dot, slash]).flatten
  mount := rootMount
  inode := ramfsRootIno + 2
  res := dotsCall.res

/-- The bytes that are not kept have no name in them. -/
theorem climbRun_startsAt :
    StartsAt (mountTable bootMounts) dotsCall.res
      (Cwd.after bootMounts (climbRun ++ [dotsCall])).text rootMount (ramfsRootIno + 2) := by
  have hlast : vfsChdir (mountTable bootMounts) (Cwd.after bootMounts climbRun).text dotsCall =
      .ok (dotsFound.abs, dotsFound.mount, dotsFound.inode) := by
    decide +kernel
  have hf : (Cwd.after bootMounts (climbRun ++ [dotsCall])).found = some dotsFound := by
    rw [Cwd.after] at hlast ⊢
    rw [run_append, run_cons, run_nil, Cwd.chdir, hlast]
    rfl
  exact startsAt_of_whole bootMounts _ hf (fun _ _ _ _ => rfl) (by decide +kernel)

end Vfs

end UnixOs
