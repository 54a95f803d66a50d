import UnixOs.Fs.Vfs

/-!
# The mount table (vfs_mount.c)

`vfs_mount` refuses a target that is mounted, so the targets of a table are different, and
of those that match a path no two have the same length. The scan of `vfs_resolve_mount`
then stops with the only longest one (`vfsResolveMount_longest`).
-/

namespace UnixOs

open List Machine Errno

def Errno.EBUSY : Int := 16

namespace Vfs

/-- `VFS_MAX_MOUNTS`. -/
def vfsMaxMounts : Nat := 8

/-- The arguments of a `vfs_mount`; `none` is a null pointer. -/
structure MountCall where
  target : Option FileName
  fs : Option Nat
  root : Nat

/-- `vfs_mount` (vfs_mount.c:44). Slots are never given back, so those in use are the first
ones of the table. -/
def vfsMount (mounts : List Mount) (a : MountCall) : List Mount × Int :=
  match a.target, a.fs with
  | some target, some fs =>
    if h : mountTargetValid target = true ∧ a.root ≠ 0 then
      if mounts.any (·.target == target) then (mounts, -EBUSY)
      else if mounts.length < vfsMaxMounts then (mounts ++ [⟨target, fs, a.root, h.1, h.2⟩], 0)
      else (mounts, -ENOSPC)
    else (mounts, -EINVAL)
  | _, _ => (mounts, -EINVAL)

/-- The table after some calls. -/
def mountTable (calls : List MountCall) : List Mount := run (fun ms a => (vfsMount ms a).1) [] calls

/-- `vfs_resolve_mount` (vfs_mount.c:84) with the rest of the path. -/
def vfsResolveMount (mounts : List Mount) (path : FileName) : Except Int (Mount × FileName) :=
  if path.head? ≠ some slash then .error (-EINVAL)
  else
    match resolveMount mounts path with
    | none => .error (-ENOENT)
    | some m => .ok (m, path.drop (mountPrefixLen m.target path))

variable {m m' : Mount} {mounts : List Mount} {path : FileName}

/-- No target is mounted twice. -/
theorem target_inj_of_mountTable (calls : List MountCall) :
    (mountTable calls).Pairwise fun m m' => m.target ≠ m'.target := by
  refine run_always (fun ms a h => ?_) Pairwise.nil calls
  dsimp only [vfsMount]
  split
  swap
  · exact h
  split
  swap
  · exact h
  split
  · exact h
  next hnew =>
  split
  · refine pairwise_append.2 ⟨h, pairwise_singleton _ _, fun m hm m' hm' heq => hnew ?_⟩
    obtain rfl := mem_singleton.1 hm'
    exact any_eq_true.2 ⟨m, hm, beq_iff_eq.2 heq⟩
  · exact h

theorem target_length_pos (m : Mount) : 0 < m.target.length := by
  have hhead := (of_decide_eq_true m.valid).1
  cases ht : m.target with
  | nil => exact absurd (ht ▸ hhead) nofun
  | cons a t => exact Nat.succ_pos _

theorem mountPrefixLen_of_matches (h : Matches m path) :
    mountPrefixLen m.target path = m.target.length := by
  rw [mountPrefixLen]
  split
  · next ht => rw [ht, length_singleton]
  · next ht => exact if_pos (h.resolve_left ht)

/-- A target that matches an absolute path is the beginning of it. -/
theorem prefix_of_matches (habs : path.head? = some slash) (h : Matches m path) :
    m.target <+: path := by
  obtain ht | ⟨hp, -⟩ := h
  · obtain ⟨rest, rfl⟩ := head?_eq_some_iff.1 habs
    exact ht ▸ ⟨rest, rfl⟩
  · exact hp

theorem resolveMount_spec (h : resolveMount mounts path = some m) : m ∈ mounts ∧
    ∀ m' ∈ mounts, Matches m' path → m'.target.length ≤ m.target.length := by
  have hlen := mountPrefixLen_of_matches (matches_of_resolveMount h)
  rw [resolveMount] at h
  obtain ⟨hle, hnone | ⟨x, hx, -, hbest⟩⟩ := scan_betterMount path mounts
  · rw [hnone] at h
    cases h
  · rw [hbest] at h hle
    cases h
    rw [hlen] at hle
    exact ⟨hx, fun m' hm' h' => mountPrefixLen_of_matches h' ▸ hle m' hm'⟩

theorem not_matches_of_resolveMount (h : resolveMount mounts path = none) :
    ∀ m ∈ mounts, ¬ Matches m path := by
  rw [resolveMount] at h
  obtain ⟨hle, hnone | ⟨x, -, -, hbest⟩⟩ := scan_betterMount path mounts
  · intro m hm hmatch
    have hlen := hle m hm
    rw [hnone, mountPrefixLen_of_matches hmatch] at hlen
    exact absurd (target_length_pos m) (by omega)
  · rw [hbest] at h
    cases h

/-- Two beginnings of a path of one length are the same target. -/
theorem eq_of_matches (calls : List MountCall) (habs : path.head? = some slash)
    (hm : m ∈ mountTable calls) (hm' : m' ∈ mountTable calls) (h : Matches m path)
    (h' : Matches m' path) (heq : m.target.length = m'.target.length) : m = m' := by
  by_contra hne
  have hsame : m.target = m'.target :=
    (prefix_of_prefix_length_le (prefix_of_matches habs h) (prefix_of_matches habs h')
      heq.le).eq_of_length heq
  have : Std.Symm fun m m' : Mount => m.target ≠ m'.target := ⟨fun _ _ h e => h e.symm⟩
  exact (target_inj_of_mountTable calls).forall hm hm' hne hsame

/-- The mount of an absolute path is the one whose target is the longest that matches, with
the rest of the path; there is none only if no target matches. -/
theorem vfsResolveMount_longest (calls : List MountCall) (habs : path.head? = some slash) :
    (vfsResolveMount (mountTable calls) path = .error (-ENOENT) ∧
      ∀ m ∈ mountTable calls, ¬ Matches m path) ∨
    ∃ m rel, vfsResolveMount (mountTable calls) path = .ok (m, rel) ∧ m ∈ mountTable calls ∧
      Matches m path ∧ path = m.target ++ rel ∧
      ∀ m' ∈ mountTable calls, Matches m' path → m' ≠ m → m'.target.length < m.target.length := by
  rw [vfsResolveMount, if_neg (not_not.2 habs)]
  cases hres : resolveMount (mountTable calls) path with
  | none => exact .inl ⟨rfl, not_matches_of_resolveMount hres⟩
  | some m =>
    have hmatch := matches_of_resolveMount hres
    obtain ⟨hm, hlong⟩ := resolveMount_spec hres
    refine .inr ⟨m, path.drop m.target.length, ?_, hm, hmatch, ?_, fun m' hm' h' hne => ?_⟩
    · dsimp only
      rw [mountPrefixLen_of_matches hmatch]
    · obtain ⟨rel, rfl⟩ := prefix_of_matches habs hmatch
      rw [drop_left]
    · refine lt_of_le_of_ne (hlong m' hm' h') fun heq => ?_
      exact hne (eq_of_matches calls habs hm' hm h' hmatch heq)

/-- The calls of the boot. -/
def bootMounts : List MountCall :=
  [⟨some rootMount.target, some 0, ramfsRootIno⟩, ⟨some mntMount.target, some 1, 2⟩]

theorem vfsResolveMount_mnt :
    vfsResolveMount (mountTable bootMounts) (mntMount.target ++ [slash, 0x66])
      = .ok (mntMount, [slash, 0x66]) ∧ rootMount.target.length < mntMount.target.length := by
  have hres : vfsResolveMount (mountTable bootMounts) (mntMount.target ++ [slash, 0x66])
      = .ok (mntMount, [slash, 0x66]) := by decide
  have habs : (mntMount.target ++ [slash, 0x66]).head? = some slash := rfl
  obtain ⟨herr, -⟩ | ⟨m, rel, hok, -, -, -, hlong⟩ := vfsResolveMount_longest bootMounts habs
  · exact nomatch hres.symm.trans herr
  · obtain ⟨rfl, rfl⟩ := Prod.mk.inj (Except.ok.inj (hok.symm.trans hres))
    exact ⟨hres, hlong rootMount (by decide) (.inl rfl) (by decide)⟩

end Vfs

end UnixOs
