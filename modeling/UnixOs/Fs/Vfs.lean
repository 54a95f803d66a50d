import UnixOs.Fs.RamfsOpen

/-!
# Mounts and paths (vfs_mount.c)

A path is dispatched in two phases: the mount is the one whose target is the
longest prefix of the text of the path, and the rest is walked component by
component in the file system of the mount, from its root. What the file systems
answer is a parameter (`Lookup`), so that the same functions serve for all of
them.

- `components`: what `walk_components` makes of a text, with `walk` over them;
- `PathEdit`: the changes of a path that should not change what it means;
- `resolves_edit_iff`: which of them do not.
-/

namespace UnixOs

open List Errno

/-- `mount_target_valid` (vfs_mount.c:31). -/
def mountTargetValid (target : FileName) : Bool :=
  decide (target.head? = some slash ∧ target.length < 64 ∧
    (1 < target.length → target.getLast? ≠ some slash))

/-- `vfs_make_abs_path` (vfs_fd.c:78) into 512 bytes. -/
def makeAbsPath (cwd path : FileName) : Except Int FileName :=
  if path.head? = some slash then
    if path.length ≤ 511 then .ok path else .error (-ENAMETOOLONG)
  else if cwd = [] then
    if path.length ≤ 510 then .ok (slash :: path) else .error (-ENAMETOOLONG)
  else if 510 < cwd.length then .error (-ENAMETOOLONG)
  else if cwd.getLast? ≠ some slash ∧ 510 ≤ cwd.length then .error (-ENAMETOOLONG)
  else
    let base := if cwd.getLast? = some slash then cwd else cwd ++ [slash]
    if base.length + path.length ≤ 511 then .ok (base ++ path) else .error (-ENAMETOOLONG)

/-- `mount_t` (fs_internal.h): `fs` stands for `ops` and `fs_priv`. -/
structure Mount where
  target : FileName
  fs : Nat
  root : Nat
  valid : mountTargetValid target = true
  root_ne : root ≠ 0
  deriving DecidableEq

/-- What `ops->resolve` answers in each file system. -/
abbrev Lookup := Nat → Nat → FileName → Nat

namespace Vfs

/-- `mount_prefix_len` (vfs_mount.c:69). -/
def mountPrefixLen (target path : FileName) : Nat :=
  if target = [slash] then 1
  else if target <+: path ∧ (path[target.length]? = none ∨ path[target.length]? = some slash) then
    target.length
  else 0

/-- One slot in the loop of `vfs_resolve_mount`: the best mount so far and its
length. -/
def betterMount (path : FileName) (best : Option Mount × Nat) (m : Mount) : Option Mount × Nat :=
  if best.2 < mountPrefixLen m.target path then (some m, mountPrefixLen m.target path) else best

/-- `vfs_resolve_mount` (vfs_mount.c:84) of an absolute path, for the slots in
use. -/
def resolveMount (mounts : List Mount) (path : FileName) : Option Mount :=
  (mounts.foldl (betterMount path) (none, 0)).1

/-- `resolve_one` (vfs_mount.c:111). -/
def resolveOne (res : Nat → FileName → Nat) (cur : Nat) (comp : FileName) : Nat :=
  if comp = [dot] then cur else res cur comp

/-- `walk_components` (vfs_mount.c:118): `comp` is what was read of the current
component, of which 63 bytes are kept. -/
def walkComponents (res : Nat → FileName → Nat) (cur : Nat) (comp : FileName) : FileName → Nat
  | [] => if comp ≠ [] then resolveOne res cur comp else cur
  | c :: rel =>
    if c = slash then
      if comp ≠ [] then
        let cur := resolveOne res cur comp
        if cur = 0 then 0 else walkComponents res cur [] rel
      else walkComponents res cur [] rel
    else walkComponents res cur (if comp.length < 63 then comp ++ [c] else comp) rel

/-- `vfs_resolve_path` (vfs_mount.c:152). -/
def resolvePath (mounts : List Mount) (res : Lookup) (path : FileName) :
    Except Int (Mount × Nat) :=
  if path.head? ≠ some slash then .error (-EINVAL)
  else
    match resolveMount mounts path with
    | none => .error (-ENOENT)
    | some m =>
      let ino := walkComponents (res m.fs) m.root [] (path.drop m.target.length)
      if ino = 0 then .error (-ENOENT) else .ok (m, ino)

/-! ## The mount of a path -/

/-- A mount is chosen for a path only if its target is a prefix of it. -/
def Matches (m : Mount) (path : FileName) : Prop :=
  m.target = [slash] ∨
    m.target <+: path ∧ (path[m.target.length]? = none ∨ path[m.target.length]? = some slash)

theorem mountPrefixLen_ne_zero {m : Mount} {path : FileName}
    (h : mountPrefixLen m.target path ≠ 0) : Matches m path := by
  rw [mountPrefixLen] at h
  split at h
  · next ht => exact .inl ht
  · split at h
    · next hp => exact .inr hp
    · exact absurd rfl h

/-- The loop over the slots: the best mount so far is one of those seen and has a match, and
none has a longer one. -/
theorem scan_betterMount (path : FileName) (mounts : List Mount) :
    (∀ m ∈ mounts, mountPrefixLen m.target path ≤ (mounts.foldl (betterMount path) (none, 0)).2) ∧
      (mounts.foldl (betterMount path) (none, 0) = (none, 0) ∨
        ∃ m ∈ mounts, mountPrefixLen m.target path ≠ 0 ∧
          mounts.foldl (betterMount path) (none, 0) = (some m, mountPrefixLen m.target path)) := by
  induction mounts using reverseRecOn with
  | nil => exact ⟨fun _ h => absurd h not_mem_nil, .inl rfl⟩
  | append_singleton ms m ih =>
    obtain ⟨hle, hbest⟩ := ih
    rw [foldl_append, foldl_cons, foldl_nil, betterMount]
    split
    · next hlt =>
      refine ⟨fun x hx => ?_, .inr ⟨m, by simp, by omega, rfl⟩⟩
      obtain hx | hx := mem_append.1 hx
      · exact Nat.le_of_lt ((hle x hx).trans_lt hlt)
      · rw [mem_singleton.1 hx]
    · refine ⟨fun x hx => ?_, hbest.imp_right fun ⟨x, hx, he⟩ => ⟨x, mem_append_left _ hx, he⟩⟩
      obtain hx | hx := mem_append.1 hx
      · exact hle x hx
      · rw [mem_singleton.1 hx]
        omega

theorem matches_of_resolveMount {mounts : List Mount} {path : FileName} {m : Mount}
    (h : resolveMount mounts path = some m) : Matches m path := by
  rw [resolveMount] at h
  obtain ⟨-, hnone | ⟨x, -, hne, hbest⟩⟩ := scan_betterMount path mounts
  · rw [hnone] at h
    cases h
  · rw [hbest] at h
    cases h
    exact mountPrefixLen_ne_zero hne

/-- When a path is resolved, and to what. -/
theorem resolvePath_eq_ok_iff {mounts : List Mount} {res : Lookup} {path : FileName} {m : Mount}
    {i : Nat} : resolvePath mounts res path = .ok (m, i) ↔
      path.head? = some slash ∧ resolveMount mounts path = some m ∧ i ≠ 0 ∧
        walkComponents (res m.fs) m.root [] (path.drop m.target.length) = i := by
  rw [resolvePath]
  by_cases hhead : path.head? = some slash
  · rw [if_neg (not_not.2 hhead)]
    cases hm : resolveMount mounts path with
    | none => simp
    | some m' =>
      dsimp only
      constructor
      · intro h
        split at h
        · cases h
        · next hne =>
          obtain ⟨rfl, rfl⟩ := Prod.mk.inj (Except.ok.inj h)
          exact ⟨hhead, rfl, hne, rfl⟩
      · rintro ⟨-, heq, hne, hwalk⟩
        cases heq
        rw [hwalk, if_neg hne]
  · rw [if_pos hhead]
    refine iff_of_false (by rintro ⟨⟩) ?_
    rintro ⟨h, -⟩
    exact hhead h

/-! ## Components -/

/-- The components of a text, when `comp` is what was read of the current one. -/
def componentsFrom (comp : FileName) : FileName → List FileName
  | [] => if comp ≠ [] then [comp] else []
  | c :: rel =>
    if c = slash then
      if comp ≠ [] then comp :: componentsFrom [] rel else componentsFrom [] rel
    else componentsFrom (if comp.length < 63 then comp ++ [c] else comp) rel

/-- The components of a text: what is between slashes, 63 bytes of it. -/
def components (rel : FileName) : List FileName := componentsFrom [] rel

/-- The walk over components. -/
def walk (res : Nat → FileName → Nat) (cur : Nat) : List FileName → Nat
  | [] => cur
  | c :: cs =>
    if resolveOne res cur c = 0 then 0 else walk res (resolveOne res cur c) cs

section Walk

variable {res : Nat → FileName → Nat} {cur : Nat}

theorem walk_singleton (c : FileName) : walk res cur [c] = resolveOne res cur c := by
  rw [walk]
  split
  · next h => exact h.symm
  · rfl

/-- The walk over the bytes is the walk over the components. -/
theorem walkComponents_eq (rel comp : FileName) :
    walkComponents res cur comp rel = walk res cur (componentsFrom comp rel) := by
  induction rel generalizing cur comp with
  | nil =>
    rw [walkComponents, componentsFrom]
    split
    · rw [walk_singleton]
    · rfl
  | cons c rel ih =>
    rw [walkComponents, componentsFrom]
    split
    · split
      · dsimp only
        rw [walk]
        split
        · rfl
        · exact ih []
      · exact ih []
    · exact ih _

theorem walk_append (hcur : cur ≠ 0) (l l' : List FileName) : walk res cur (l ++ l') =
    if walk res cur l = 0 then 0 else walk res (walk res cur l) l' := by
  induction l generalizing cur with
  | nil =>
    rw [walk, if_neg hcur]
    rfl
  | cons c cs ih =>
    rw [cons_append, walk, walk]
    by_cases h : resolveOne res cur c = 0
    · rw [if_pos h, if_pos h, if_pos rfl]
    · rw [if_neg h, if_neg h]
      exact ih h

end Walk

theorem componentsFrom_append_slash (a b comp : FileName) :
    componentsFrom comp (a ++ slash :: b) = componentsFrom comp a ++ components b := by
  induction a generalizing comp with
  | nil => by_cases h : comp = [] <;> simp [componentsFrom, components, h]
  | cons c a ih =>
    rw [cons_append, componentsFrom, componentsFrom]
    split
    · split
      · rw [ih, cons_append]
      · exact ih []
    · exact ih _

@[simp] theorem components_nil : components [] = [] := rfl

theorem components_append_slash (a b : FileName) :
    components (a ++ slash :: b) = components a ++ components b :=
  componentsFrom_append_slash a b []

@[simp] theorem components_slash (b : FileName) : components (slash :: b) = components b :=
  components_append_slash [] b

/-- A name without a slash is one component. -/
theorem componentsFrom_name {d comp : FileName} (hd : slash ∉ d) (hne : comp ++ d ≠ [])
    (hlen : comp.length ≤ 63) : componentsFrom comp d = [(comp ++ d).take 63] := by
  induction d generalizing comp with
  | nil =>
    rw [append_nil] at hne ⊢
    rw [componentsFrom, if_pos hne, take_of_length_le hlen]
  | cons c d ih =>
    have hc : c ≠ slash := fun h => hd (h ▸ mem_cons_self)
    have hd' : slash ∉ d := fun h => hd (.tail c h)
    rw [componentsFrom, if_neg hc]
    by_cases hlt : comp.length < 63
    · rw [if_pos hlt, ih hd' (by simp) (by simp; omega), append_assoc, singleton_append]
    · have hfull : comp.length = 63 := by omega
      have hcomp : comp ≠ [] := by
        rintro rfl
        cases hfull
      rw [if_neg hlt, ih hd' (by simp [hcomp]) hlen,
        take_append_of_le_length (by omega), take_append_of_le_length (by omega)]

theorem components_name {d : FileName} (hd : slash ∉ d) (hne : d ≠ []) :
    components d = [d.take 63] :=
  componentsFrom_name hd hne (Nat.zero_le _)

end Vfs

/-! ## Edits of a path -/

/-- A change of a path between two of its components, or at its start: `a` is in
front of a slash, `b` behind it. -/
inductive PathEdit where
  | extraSlash (a b : FileName)
  | selfDot (a b : FileName)
  | pair (a d b : FileName)
  | up (path : FileName)

namespace PathEdit

def before : PathEdit → FileName
  | extraSlash a b => a ++ slash :: b
  | selfDot a b => a ++ slash :: b
  | pair a _ b => a ++ slash :: b
  | up path => path

/-- A slash more, a component `.`, the components `d` and `..`, or a leading
`/..`. -/
def after : PathEdit → FileName
  | extraSlash a b => a ++ slash :: slash :: b
  | selfDot a b => a ++ slash :: dot :: slash :: b
  | pair a d b => a ++ slash :: (d ++ slash :: dot :: dot :: slash :: b)
  | up path => slash :: dot :: dot :: path

/-- A slash or a `.`. -/
def IsPlain : PathEdit → Prop
  | extraSlash _ _ => True
  | selfDot _ _ => True
  | _ => False

/-- `d` is a name. -/
def Valid : PathEdit → Prop
  | pair _ d _ => d ≠ [] ∧ slash ∉ d
  | _ => True

/-- What the edit adds behind the target of the mount leads back to where it
starts: the target ends in front of `d`, and `..` of `d` is the directory `d` was
found in; or the mount is that of `/`, and `..` of its root is the root. -/
def LeadsBack (res : Lookup) (m : Mount) : PathEdit → Prop
  | pair a d _ =>
    m.target.length ≤ a.length + 1 ∧
      let cur := Vfs.walkComponents (res m.fs) m.root [] (a.drop m.target.length)
      let inode := Vfs.resolveOne (res m.fs) cur (d.take 63)
      inode ≠ 0 ∧ res m.fs inode [dot, dot] = cur
  | up _ => m.target = [slash] ∧ res m.fs m.root [dot, dot] = m.root
  | _ => True

/-- The text of the new path selects the same mount, and what is added leads back. -/
def Harmless (mounts : List Mount) (res : Lookup) (e : PathEdit) : Prop :=
  Vfs.resolveMount mounts e.after = Vfs.resolveMount mounts e.before ∧
    ∀ m, Vfs.resolveMount mounts e.before = some m → LeadsBack res m e

end PathEdit

namespace Vfs

/-! ### Where the target of a mount ends -/

variable {m : Mount} {a b u : FileName}

/-- `/` is the only target that ends in a slash. -/
theorem target_cases (m : Mount) :
    m.target = [slash] ∨ 1 < m.target.length ∧ m.target.getLast? ≠ some slash := by
  have hv := of_decide_eq_true m.valid
  by_cases hlen : 1 < m.target.length
  · exact .inr ⟨hlen, hv.2.2 hlen⟩
  · obtain ⟨hhead, -⟩ := hv
    cases ht : m.target with
    | nil =>
      rw [ht] at hhead
      cases hhead
    | cons c l =>
      rw [ht] at hhead hlen
      cases hhead
      obtain rfl := eq_nil_of_length_eq_zero (by simpa using hlen : l.length = 0)
      exact .inl rfl

/-- A target that ends in front of the slash or with it. -/
theorem components_drop {n : Nat} (hn : n ≤ a.length + 1) (b : FileName) :
    components ((a ++ slash :: b).drop n) = components (a.drop n) ++ components b := by
  obtain hle | rfl := Nat.lt_or_eq_of_le hn
  · rw [drop_append_of_le_length (by omega), components_append_slash]
  · rw [drop_append, drop_of_length_le (by omega)]
    simp

/-- A target that ends behind the slash takes whole components of what follows. -/
theorem target_beyond (hm : Matches m (a ++ slash :: b)) (hlong : a.length + 1 < m.target.length) :
    ∃ u b', m.target = a ++ slash :: u ∧ b = u ++ b' ∧ u ≠ [] ∧ u.getLast? ≠ some slash ∧
      (b' = [] ∨ b'.head? = some slash) := by
  obtain hroot | ⟨⟨rest, hrest⟩, hnext⟩ := hm
  · rw [hroot, length_singleton] at hlong
    omega
  have hpre : a ++ [slash] <+: m.target := by
    have hfull : a ++ [slash] <+: a ++ slash :: b := ⟨b, by simp⟩
    refine prefix_of_prefix_length_le hfull ⟨rest, hrest⟩ ?_
    rw [length_append, length_singleton]
    omega
  obtain ⟨u, hu⟩ := hpre
  rw [append_assoc, singleton_append] at hu
  have hne : u ≠ [] := by
    rintro rfl
    rw [← hu, length_append, length_singleton] at hlong
    omega
  have hb : b = u ++ rest := by
    rw [← hu, append_assoc] at hrest
    exact (cons.inj (append_cancel_left hrest)).2.symm
  refine ⟨u, rest, hu.symm, hb, hne, ?_, ?_⟩
  · obtain hroot | ⟨-, hlast⟩ := target_cases m
    · rw [hroot, length_singleton] at hlong
      omega
    · intro hs
      refine hlast ?_
      rw [← hu, getLast?_append, getLast?_cons, hs]
      rfl
  · rw [← hrest, getElem?_append_right (Nat.le_refl _), Nat.sub_self, ← head?_eq_getElem?] at hnext
    obtain hnone | hslash := hnext
    · exact .inl (head?_eq_none_iff.1 hnone)
    · exact .inr hslash

/-- What is a prefix with and without a slash in front consists of slashes. -/
theorem eq_slash_of_shift {c : UInt8} (h : u <+: b) (h' : u <+: slash :: b) (hc : c ∈ u) :
    c = slash := by
  induction u generalizing b with
  | nil => cases hc
  | cons x u ih =>
    obtain ⟨rest, hrest⟩ := h
    obtain ⟨rest', hrest'⟩ := h'
    obtain ⟨rfl, htail⟩ := cons.inj hrest'
    rw [← hrest] at htail
    obtain rfl | hc := mem_cons.1 hc
    · rfl
    · exact ih ⟨rest, rfl⟩ ⟨rest', htail⟩ hc

/-- What is a prefix with and without `./` in front leaves the same components,
but for a `.`. -/
theorem components_of_shift {b' b1 : FileName} (hne : u ≠ []) (hlast : u.getLast? ≠ some slash)
    (hb : b = u ++ b') (hb1 : dot :: slash :: b = u ++ b1)
    (hnext : b' = [] ∨ b'.head? = some slash) : components b1 = [dot] :: components b' := by
  -- two bytes of `u` at a time
  induction hlen : u.length using Nat.strong_induction_on generalizing u b with
  | _ n ih =>
    match u with
    | [] => exact absurd rfl hne
    | [c] =>
      obtain ⟨rfl, htail⟩ := cons.inj hb1
      replace htail : slash :: b = b1 := htail
      rw [← htail, hb]
      obtain rfl | hnext := hnext
      · rfl
      · cases b' with
        | nil => cases hnext
        | cons x b' =>
          cases hnext
          exact componentsFrom_append_slash [dot] b' []
    | c :: c' :: u' =>
      obtain ⟨rfl, htail⟩ := cons.inj hb1
      obtain ⟨rfl, hrest⟩ := cons.inj htail
      have hne' : u' ≠ [] := by
        rintro rfl
        exact hlast rfl
      have hlast' : u'.getLast? ≠ some slash := by
        intro hs
        refine hlast ?_
        rw [getLast?_cons, getLast?_cons, hs]
        rfl
      exact ih u'.length (by simp at hlen; omega) hne' hlast' rfl (hb.symm.trans hrest) rfl

theorem drop_target {b' : FileName} (h : m.target = a ++ slash :: u) :
    (a ++ slash :: (u ++ b')).drop m.target.length = b' := by
  have hsplit : a ++ slash :: (u ++ b') = m.target ++ b' := by rw [h, append_assoc, cons_append]
  rw [hsplit, drop_left]

/-! ### What an edit does to the walk -/

section Edit

variable {res : Nat → FileName → Nat}

/-- A second slash makes no difference behind the mount point. -/
theorem components_slash_edit (hm : Matches m (a ++ slash :: b))
    (hm' : Matches m (a ++ slash :: slash :: b)) :
    components ((a ++ slash :: slash :: b).drop m.target.length)
      = components ((a ++ slash :: b).drop m.target.length) := by
  by_cases hlong : a.length + 1 < m.target.length
  · -- such a target would end with a slash
    obtain ⟨u, b', hu, hb, hne, hlast, -⟩ := target_beyond hm hlong
    obtain ⟨u', b1, hu', hb1, -⟩ := target_beyond hm' hlong
    obtain rfl : u' = u := by
      rw [hu] at hu'
      exact (cons.inj (append_cancel_left hu')).2.symm
    obtain ⟨c, hc⟩ := Option.ne_none_iff_exists'.1 (mt getLast?_eq_none_iff.1 hne)
    have := eq_slash_of_shift ⟨b', hb.symm⟩ ⟨b1, hb1.symm⟩ (mem_of_getLast? hc)
    exact absurd (this ▸ hc) hlast
  · rw [components_drop (by omega), components_drop (by omega), components_slash]

/-- The components with a `.` more. -/
theorem components_dot_edit (hm : Matches m (a ++ slash :: b))
    (hm' : Matches m (a ++ slash :: dot :: slash :: b)) :
    ∃ l l', components ((a ++ slash :: b).drop m.target.length) = l ++ l' ∧
      components ((a ++ slash :: dot :: slash :: b).drop m.target.length) = l ++ [dot] :: l' := by
  by_cases hlong : a.length + 1 < m.target.length
  · obtain ⟨u, b', hu, hb, hne, hlast, hnext⟩ := target_beyond hm hlong
    obtain ⟨u', b1, hu', hb1, -⟩ := target_beyond hm' hlong
    obtain rfl : u' = u := by
      rw [hu] at hu'
      exact (cons.inj (append_cancel_left hu')).2.symm
    refine ⟨[], components b', ?_, ?_⟩
    · rw [hb, drop_target hu]
      rfl
    · rw [hb1, drop_target hu]
      exact components_of_shift hne hlast hb hb1 hnext
  · refine ⟨components (a.drop m.target.length), components b, components_drop (by omega) b, ?_⟩
    rw [components_drop (by omega)]
    exact congrArg _ (components_append_slash [dot] b)

theorem walk_dot {cur : Nat} (hcur : cur ≠ 0) (l l' : List FileName) :
    walk res cur (l ++ [dot] :: l') = walk res cur (l ++ l') := by
  rw [walk_append hcur, walk_append hcur]
  split
  · rfl
  · next h =>
    have hone : resolveOne res (walk res cur l) [dot] = walk res cur l := if_pos rfl
    rw [walk, hone, if_neg h]

/-- A pair that leads back. -/
theorem walk_pair {cur : Nat} (hcur : cur ≠ 0) {l l' : List FileName} {d : FileName}
    (hne : resolveOne res (walk res cur l) d ≠ 0)
    (hback : res (resolveOne res (walk res cur l) d) [dot, dot] = walk res cur l) :
    walk res cur (l ++ d :: [dot, dot] :: l') = walk res cur (l ++ l') := by
  have hup : resolveOne res (resolveOne res (walk res cur l) d) [dot, dot] = walk res cur l := by
    rw [resolveOne, if_neg (by decide)]
    exact hback
  rw [walk_append hcur, walk_append hcur]
  split
  · rfl
  · next h => rw [walk, if_neg hne, walk, hup, if_neg h]

end Edit

end Vfs

open Vfs in
/-- An edit that leads back does not change the walk. -/
theorem PathEdit.walk_after {res : Lookup} {m : Mount} {e : PathEdit} (hvalid : e.Valid)
    (hhead : e.before.head? = some slash) (hm : Matches m e.before) (hm' : Matches m e.after)
    (hback : LeadsBack res m e) :
    walkComponents (res m.fs) m.root [] (e.after.drop m.target.length)
      = walkComponents (res m.fs) m.root [] (e.before.drop m.target.length) := by
  rw [walkComponents_eq, walkComponents_eq]
  cases e with
  | extraSlash a b => exact congrArg _ (components_slash_edit hm hm')
  | selfDot a b =>
    obtain ⟨l, l', h, h'⟩ := components_dot_edit hm hm'
    refine (congrArg _ h').trans ((walk_dot m.root_ne l l').trans (congrArg _ h.symm))
  | pair a d b =>
    obtain ⟨hlen, hne, hup⟩ := hback
    rw [walkComponents_eq] at hne hup
    refine (congrArg _ (components_drop hlen _)).trans (Eq.trans ?_
      (congrArg _ (components_drop hlen b).symm))
    have hpair : components (d ++ slash :: dot :: dot :: slash :: b)
        = d.take 63 :: [dot, dot] :: components b := by
      rw [components_append_slash, components_name hvalid.2 hvalid.1]
      exact congrArg _ (components_append_slash [dot, dot] b)
    rw [hpair]
    exact walk_pair m.root_ne hne hup
  | up path =>
    obtain ⟨hroot, hup⟩ := hback
    rw [hroot]
    cases path with
    | nil => cases hhead
    | cons c rel =>
      cases hhead
      show walk _ _ (components (dot :: dot :: slash :: rel)) = walk _ _ (components rel)
      have hcomps : components (dot :: dot :: slash :: rel)
          = [dot, dot] :: components rel :=
        components_append_slash [dot, dot] rel
      have hone : resolveOne (res m.fs) m.root [dot, dot] = m.root := by
        rw [resolveOne]
        exact hup
      rw [hcomps, walk, hone, if_neg m.root_ne]

theorem PathEdit.head_after {e : PathEdit} (h : e.before.head? = some slash) :
    e.after.head? = some slash := by
  have hbehind {a b b' : FileName} (h : (a ++ slash :: b).head? = some slash) :
      (a ++ slash :: b').head? = some slash := by
    cases a with
    | nil => rfl
    | cons c a => exact h
  cases e with
  | extraSlash | selfDot | pair => exact hbehind h
  | up path => rfl

/-- **Normalisation**: a path that resolves still resolves to the same inode of the
same mount after an edit that is harmless; only if the text still selects the same
mount; and for an extra slash or a `.` only if the edit is harmless. -/
theorem resolves_edit_iff {mounts : List Mount} {res : Lookup} {e : PathEdit} {m : Mount} {i : Nat}
    (hvalid : e.Valid) (h : Vfs.resolvePath mounts res e.before = .ok (m, i)) :
    (e.Harmless mounts res → Vfs.resolvePath mounts res e.after = .ok (m, i)) ∧
      (Vfs.resolvePath mounts res e.after = .ok (m, i) →
        Vfs.resolveMount mounts e.after = Vfs.resolveMount mounts e.before ∧
          (e.IsPlain → e.Harmless mounts res)) := by
  obtain ⟨hhead, hsel, hne, hwalk⟩ := Vfs.resolvePath_eq_ok_iff.1 h
  constructor
  · rintro ⟨hsame, hback⟩
    have hsel' := hsame.trans hsel
    refine Vfs.resolvePath_eq_ok_iff.2 ⟨PathEdit.head_after hhead, hsel', hne, ?_⟩
    rw [PathEdit.walk_after hvalid hhead (Vfs.matches_of_resolveMount hsel)
      (Vfs.matches_of_resolveMount hsel') (hback m hsel)]
    exact hwalk
  · intro hafter
    have hsame : Vfs.resolveMount mounts e.after = Vfs.resolveMount mounts e.before :=
      (Vfs.resolvePath_eq_ok_iff.1 hafter).2.1.trans hsel.symm
    refine ⟨hsame, fun hplain => ⟨hsame, fun m' _ => ?_⟩⟩
    cases e with
    | extraSlash | selfDot => trivial
    | pair | up => exact hplain.elim

/-! The mount table of the boot, ramfs at `/` and a second file system at `/mnt`,
which has a file `f`. -/

def rootMount : Mount := ⟨[slash], 0, ramfsRootIno, by decide, by decide⟩

/-- `/mnt`. -/
def mntMount : Mount := ⟨[slash, 0x6D, 0x6E, 0x74], 1, 2, by decide, by decide⟩

/-- A fresh ramfs, and a file system with one file in its root. -/
def bootLookup : Lookup := fun fs cur name =>
  if fs = 0 then Ramfs.init.opResolve cur name
  else if cur = 2 ∧ name = [0x66] then 12
  else if cur = 2 ∧ name = [dot, dot] then 2
  else 0

/-- `/mnt/f` with an extra slash behind the mount point. -/
theorem resolves_mnt_slash :
    Vfs.resolvePath [rootMount, mntMount] bootLookup (mntMount.target ++ [slash, 0x66])
      = .ok (mntMount, 12) ∧
    Vfs.resolvePath [rootMount, mntMount] bootLookup (mntMount.target ++ [slash, slash, 0x66])
      = .ok (mntMount, 12) := by
  have h : Vfs.resolvePath [rootMount, mntMount] bootLookup
      (PathEdit.extraSlash mntMount.target [0x66]).before = .ok (mntMount, 12) := by decide
  have hvalid : (PathEdit.extraSlash mntMount.target [0x66]).Valid := trivial
  exact ⟨h, (resolves_edit_iff hvalid h).1 ⟨by decide, fun _ _ => trivial⟩⟩

/-- In front of the mount point the slash selects ramfs, which has no `mnt`. -/
theorem resolves_slash_mnt :
    Vfs.resolvePath [rootMount, mntMount] bootLookup
        (PathEdit.extraSlash [] [0x6D, 0x6E, 0x74, slash, 0x66]).before = .ok (mntMount, 12) ∧
      Vfs.resolvePath [rootMount, mntMount] bootLookup
        (PathEdit.extraSlash [] [0x6D, 0x6E, 0x74, slash, 0x66]).after ≠ .ok (mntMount, 12) := by
  decide

end UnixOs
