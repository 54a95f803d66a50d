import Mathlib.Data.List.GetD
import Mathlib.Tactic.Common

/-!
# Block devices that lose power

A device with a volatile write cache: a write is *pending* once the device has
accepted it and *durable* after the next completed flush. When the power
fails, any subset of the pending writes has reached the medium. A write that is
answered with an error may have been accepted all the same (*late*).

* `Image` is the content of a medium, `store` and `storeAll` write to it.
* `Disk` is the durable image with the pending writes.
* `DevM` are programs over a disk. The environment decides, request by
  request, what the device answers and when the power fails.
* `Triple K P x Q C` is a Hoare triple with a crash condition: `Q` where the
  program returns, `C` where the machine stops inside it, in an environment in
  which flushes complete and no write of `K` is late.

The cells are of any type `κ`.
-/

namespace UnixOs.BlockDevice

open List

variable {κ : Type}

/-! ## Images -/

/-- The content of a medium, cell by cell. -/
abbrev Image (κ : Type) := Nat → κ

/-- A request to put `data` at `off`. -/
@[ext]
structure Write (κ : Type) where
  off : Nat
  data : List κ
  deriving DecidableEq

/-- The cells a write determines. -/
def Write.Covers (w : Write κ) (a : Nat) : Prop :=
  w.off ≤ a ∧ a < w.off + w.data.length

instance (w : Write κ) (a : Nat) : Decidable (w.Covers a) :=
  inferInstanceAs (Decidable (_ ∧ _))

namespace Image

/-- The image after one write. -/
def store (m : Image κ) (w : Write κ) : Image κ := fun a =>
  if w.off ≤ a then w.data.getD (a - w.off) (m a) else m a

/-- The image after some writes, first to last. -/
def storeAll (m : Image κ) (ws : List (Write κ)) : Image κ :=
  ws.foldl store m

/-- The `n` cells from `off` on. -/
def load (m : Image κ) (off n : Nat) : List κ :=
  (List.range n).map fun i => m (off + i)

variable {m m' : Image κ} {w : Write κ} {ws vs : List (Write κ)} {a : Nat}

theorem store_of_not_covers (h : ¬ w.Covers a) : m.store w a = m a := by
  rw [store]
  split
  · next hle =>
    -- Below `off + length` the address would be covered.
    have hlen : w.data.length ≤ a - w.off := by
      by_contra hlt
      exact h ⟨hle, by omega⟩
    rw [getD_eq_getElem?_getD, List.getElem?_eq_none hlen]
    rfl
  · rfl

/-- What a covered cell holds does not depend on the image before. -/
theorem store_of_covers (h : w.Covers a) : m.store w a = m'.store w a := by
  obtain ⟨hle, hlt⟩ := h
  have hidx : a - w.off < w.data.length := by omega
  rw [store, store, if_pos hle, if_pos hle, getD_eq_getElem _ _ hidx, getD_eq_getElem _ _ hidx]

theorem store_congr (h : m a = m' a) : m.store w a = m'.store w a := by rw [store, store, h]

@[simp] theorem storeAll_nil : m.storeAll [] = m := rfl

@[simp] theorem storeAll_cons :
    m.storeAll (w :: ws) = (m.store w).storeAll ws := rfl

theorem storeAll_append : m.storeAll (ws ++ vs) = (m.storeAll ws).storeAll vs :=
  foldl_append

theorem storeAll_congr (h : m a = m' a) : m.storeAll ws a = m'.storeAll ws a := by
  induction ws generalizing m m' with
  | nil => exact h
  | cons w ws ih => exact ih (store_congr h)

theorem storeAll_of_not_covers (h : ∀ w ∈ ws, ¬ w.Covers a) : m.storeAll ws a = m a := by
  induction ws generalizing m with
  | nil => rfl
  | cons w ws ih =>
    rw [storeAll_cons, ih fun v hv => h v (mem_cons_of_mem w hv)]
    exact store_of_not_covers (h w mem_cons_self)

/-- A cell that some write of the list covers is determined by the list. -/
theorem storeAll_of_covers (hw : w ∈ ws) (h : w.Covers a) : m.storeAll ws a = m'.storeAll ws a := by
  induction ws generalizing m m' with
  | nil => exact absurd hw not_mem_nil
  | cons v ws ih =>
    rcases mem_cons.1 hw with rfl | hw
    · show (m.store w).storeAll ws a = (m'.store w).storeAll ws a
      exact storeAll_congr (store_of_covers h)
    · exact ih hw

/-- Writes that are about to be repeated may or may not have been made. -/
theorem storeAll_storeAll_of_subset (h : ws ⊆ vs) :
    (m.storeAll ws).storeAll vs = m.storeAll vs := by
  funext a
  by_cases hc : ∃ w ∈ vs, w.Covers a
  · obtain ⟨w, hw, hcov⟩ := hc
    exact storeAll_of_covers hw hcov
  · have hno : ∀ w ∈ vs, ¬ w.Covers a := fun w hw hcov => hc ⟨w, hw, hcov⟩
    exact storeAll_congr (storeAll_of_not_covers fun w hw => hno w (h hw))

@[simp] theorem length_load {off n : Nat} : (m.load off n).length = n := by simp [load]

theorem load_congr {off n : Nat} (h : ∀ i < n, m (off + i) = m' (off + i)) :
    m.load off n = m'.load off n :=
  map_congr_left fun i hi => h i (mem_range.1 hi)

theorem load_store_self {n : Nat} (hn : w.data.length = n) : (m.store w).load w.off n = w.data := by
  refine ext_getElem (by rw [length_load, hn]) fun i hi hi' => ?_
  simp only [load, getElem_map, getElem_range, store]
  rw [if_pos (Nat.le_add_right _ _), Nat.add_sub_cancel_left, getD_eq_getElem _ _ hi']

end Image

/-! ## Disks -/

/-- A device: what is on the medium, and the writes it has accepted since. -/
structure Disk (κ : Type) where
  durable : Image κ
  pending : List (Write κ)

namespace Disk

variable (d : Disk κ)

/-- The device accepts a write. -/
def issue (w : Write κ) : Disk κ := { d with pending := d.pending ++ [w] }

/-- What a read returns. -/
def view : Image κ := d.durable.storeAll d.pending

@[simp] theorem view_issue (w : Write κ) :
    (d.issue w).view = d.view.store w := Image.storeAll_append

/-- A flush completes. -/
def sync : Disk κ := ⟨d.view, []⟩

@[simp] theorem durable_sync : d.sync.durable = d.view := rfl

end Disk

/-! ## Programs over a disk -/

/-- The answer to a request: its code, negative for an error, and which writes
are accepted in spite of the error, as after a timeout. -/
structure Answer (κ : Type) where
  rc : Int
  late : Write κ → Bool

/-- The request succeeds. -/
def Answer.done : Answer κ := ⟨0, fun _ => false⟩

/-- A machine with a disk. `answers` are those to the coming read and write
requests, `flushes` says of each coming flush whether it completes. The power
fails at the request that finds its list empty. -/
structure World (κ : Type) where
  disk : Disk κ
  answers : List (Answer κ)
  flushes : List Bool

/-- Programs that make requests. The error result is the disk at the point
where the machine stops. -/
abbrev DevM (κ : Type) := StateT (World κ) (Except (Disk κ))

/-- A write request. The device has accepted the write, unless the answer is an
error and the write is not late. -/
def blkWrite (w : Write κ) : DevM κ Int := fun s =>
  match s.answers with
  | [] => .error s.disk
  | a :: rest =>
    .ok (a.rc, { s with
      disk := if a.rc < 0 ∧ a.late w = false then s.disk else s.disk.issue w
      answers := rest })

/-- A read request for `n` cells at `off`, or the negative answer. -/
def blkRead (off n : Nat) : DevM κ (Except Int (List κ)) := fun s =>
  match s.answers with
  | [] => .error s.disk
  | a :: rest =>
    .ok (if a.rc < 0 then .error a.rc else .ok (s.disk.view.load off n),
      { s with answers := rest })

/-- A flush request. Its result is not reported. -/
def blkFlush : DevM κ Unit := fun s =>
  match s.flushes with
  | [] => .error s.disk
  | done :: rest =>
    .ok ((), { s with
      disk := if done then s.disk.sync else s.disk
      flushes := rest })

/-- The machine stops. -/
def halt {β : Type} : DevM κ β := fun s => .error s.disk

/-- A program that returns hands over to the rest. -/
theorem bind_ok {β γ : Type} {x : DevM κ β} {f : β → DevM κ γ}
    {s s' : World κ} {b : β} (h : x s = .ok (b, s')) : (x >>= f) s = f b s' := by
  show (x s >>= fun r => f r.1 r.2) = f b s'
  rw [h]
  rfl

/-- A program that stops the machine stops it for the rest too. -/
theorem bind_error {β γ : Type} {x : DevM κ β} {f : β → DevM κ γ}
    {s : World κ} {d : Disk κ} (h : x s = .error d) : (x >>= f) s = .error d := by
  show (x s >>= fun r => f r.1 r.2) = .error d
  rw [h]
  rfl

/-! ## Triples with a crash condition -/

/-- Every flush of the environment completes, and a write of `K` that is answered
with an error has not been accepted. -/
structure World.Reliable (K : Write κ → Prop) (s : World κ) : Prop where
  flushes : ∀ b ∈ s.flushes, b = true
  refused : ∀ a ∈ s.answers, a.rc < 0 → ∀ w, K w → a.late w = false

/-- The requests that are left are as reliable. -/
theorem World.Reliable.of_subset {K : Write κ → Prop} {s s' : World κ} (h : s.Reliable K)
    (hflushes : s'.flushes ⊆ s.flushes) (hanswers : s'.answers ⊆ s.answers) : s'.Reliable K :=
  ⟨fun b hb => h.flushes b (hflushes hb), fun a ha => h.refused a (hanswers ha)⟩

/-- Started on a disk in `P`, in an environment that is reliable for `K`, `x`
returns with `Q` or stops the machine with `C`. -/
def Triple {β : Type} (K : Write κ → Prop) (P : Disk κ → Prop) (x : DevM κ β)
    (Q : β → Disk κ → Prop) (C : Disk κ → Prop) : Prop :=
  ∀ s : World κ, s.Reliable K → P s.disk →
    match x s with
    | .ok (b, s') => s'.Reliable K ∧ Q b s'.disk
    | .error d => C d

namespace Triple

variable {β γ : Type} {K : Write κ → Prop} {P P' : Disk κ → Prop} {x : DevM κ β}
  {Q : β → Disk κ → Prop} {C : Disk κ → Prop}

section

variable (h : Triple K P x Q C)
include h

theorem ok {s s' : World κ} {b : β}
    (hs : s.Reliable K) (hP : P s.disk) (hx : x s = .ok (b, s')) :
    s'.Reliable K ∧ Q b s'.disk := by
  have := h s hs hP
  rwa [hx] at this

theorem error {s : World κ} {d : Disk κ}
    (hs : s.Reliable K) (hP : P s.disk) (hx : x s = .error d) : C d := by
  have := h s hs hP
  rwa [hx] at this

theorem pre (hP : ∀ d, P' d → P d) : Triple K P' x Q C :=
  fun s hs hp => h s hs (hP _ hp)

end

theorem crash {C' : Disk κ → Prop} (h : Triple K P x Q C)
    (hC : ∀ d, C d → C' d) : Triple K P x Q C' := by
  intro s hs hp
  have := h s hs hp
  cases hx : x s with
  | error d =>
    rw [hx] at this
    exact hC d this
  | ok r =>
    rw [hx] at this
    exact this

/-- What the precondition says apart from the disk may be assumed. -/
theorem assuming {H : Prop} (hH : ∀ d, P d → H) (h : H → Triple K P x Q C) :
    Triple K P x Q C :=
  fun s hs hp => h (hH _ hp) s hs hp

theorem ret {b : β} (h : ∀ d, P d → Q b d) : Triple K P (pure b) Q C :=
  fun s hs hp => ⟨hs, h s.disk hp⟩

theorem bind {f : β → DevM κ γ} {R : γ → Disk κ → Prop}
    (hx : Triple K P x Q C) (hf : ∀ b, Triple K (Q b) (f b) R C) : Triple K P (x >>= f) R C := by
  intro s hs hp
  have h := hx s hs hp
  cases hxs : x s with
  | error d =>
    rw [hxs] at h
    rw [bind_error hxs]
    exact h
  | ok r =>
    rw [hxs] at h
    rw [bind_ok hxs]
    exact hf r.1 r.2 h.1 h.2

/-- A write succeeds, is refused, or is refused and late. -/
theorem write {w : Write κ} {Q : Int → Disk κ → Prop} (hC : ∀ d, P d → C d)
    (hok : ∀ d rc, P d → 0 ≤ rc → Q rc (d.issue w))
    (herr : ∀ d rc, P d → rc < 0 → Q rc d)
    (hlate : ∀ d rc, P d → rc < 0 → ¬ K w → Q rc (d.issue w)) : Triple K P (blkWrite w) Q C := by
  intro s hs hp
  unfold blkWrite
  cases hans : s.answers with
  | nil => exact hC _ hp
  | cons a rest =>
    refine ⟨hs.of_subset (Subset.refl _) (by rw [hans]; exact subset_cons_self a rest), ?_⟩
    show Q a.rc (if a.rc < 0 ∧ a.late w = false then s.disk else s.disk.issue w)
    by_cases hrc : a.rc < 0
    · by_cases hl : a.late w = false
      · rw [if_pos ⟨hrc, hl⟩]
        exact herr s.disk a.rc hp hrc
      · rw [if_neg fun h => hl h.2]
        exact hlate s.disk a.rc hp hrc fun hK =>
          hl (hs.refused a (by rw [hans]; exact mem_cons_self) hrc w hK)
    · rw [if_neg fun h => hrc h.1]
      exact hok s.disk a.rc hp (Int.not_lt.1 hrc)

theorem flush {Q : Unit → Disk κ → Prop} (hC : ∀ d, P d → C d)
    (hok : ∀ d, P d → Q () d.sync) : Triple K P blkFlush Q C := by
  intro s hs hp
  unfold blkFlush
  cases hfl : s.flushes with
  | nil => exact hC _ hp
  | cons b rest =>
    have hb : b = true := hs.flushes b (by rw [hfl]; exact mem_cons_self)
    refine ⟨hs.of_subset (by rw [hfl]; exact subset_cons_self b rest) (Subset.refl _), ?_⟩
    simpa [hb] using hok s.disk hp

theorem stop {Q : β → Disk κ → Prop} (hC : ∀ d, P d → C d) :
    Triple K P halt Q C := fun s _ hp => hC s.disk hp

theorem ite {c : Prop} [Decidable c] {y : DevM κ β}
    (hx : c → Triple K P x Q C) (hy : ¬ c → Triple K P y Q C) :
    Triple K P (if c then x else y) Q C := by
  by_cases h : c
  · rw [if_pos h]; exact hx h
  · rw [if_neg h]; exact hy h

/-- A loop over a list keeps what its body keeps. -/
theorem foldlM {σ τ : Type} {f : σ → τ → DevM κ σ} {I : σ → Disk κ → Prop} {ts : List τ}
    (h : ∀ s, ∀ t ∈ ts, Triple K (I s) (f s t) I C) (s : σ) :
    Triple K (I s) (ts.foldlM f s) I C := by
  induction ts generalizing s with
  | nil => exact ret fun _ hd => hd
  | cons t ts ih =>
    rw [foldlM_cons]
    refine bind (h s t mem_cons_self) fun s' => ?_
    exact ih (fun s'' t' ht' => h s'' t' (mem_cons_of_mem t ht')) s'

end Triple

end UnixOs.BlockDevice
