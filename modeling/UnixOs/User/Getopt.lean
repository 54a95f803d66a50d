import Mathlib.Logic.Basic

/-!
# Option parsing (unistd_full.c)

`getopt` goes on after an option that it knows. At an unknown one, or one without its argument, it
returns `'?'` and stays there, so a caller that waits for `-1` never gets it. The option byte 255
is returned as `-1`, and the caller stops too early.

- `options`: the options before the first operand, good or not;
- `reported_iff`: when the calls report them all and then return `-1`.
-/

namespace UnixOs

open List

/-- The cursors `optind` and `optpos` with `optopt` and `optarg`. -/
structure Getopt where
  (optind optpos : Nat)
  optopt : UInt8
  optarg : Option (List UInt8)

namespace Getopt

def init : Getopt := ⟨1, 1, 0, none⟩

/-- The search in `optstring` (unistd_full.c:210): whether the option takes an argument, if it is
there. -/
def takesArg (optstring : List UInt8) (c : UInt8) : Option Bool :=
  match optstring.dropWhile (· != c) with
  | [] => none
  | _ :: p => some (p.head? == some 58)

/-- A `char` as an `int`. -/
def code (c : UInt8) : Int := c.toInt8.toInt

theorem code_inj {c d : UInt8} (h : code c = code d) : c = d := by
  simpa using congrArg Int8.toUInt8 (Int8.toInt_inj.1 h)

variable (argv : List (List UInt8)) (optstring : List UInt8)

/-- `getopt` (unistd_full.c:198) from line 208 on, in the argument `arg`. -/
def nextOption (s : Getopt) (arg : List UInt8) : Getopt × Int :=
  let c := arg.getD s.optpos 0
  match takesArg optstring c with
  | none => ({ s with optopt := c }, 63)
  | some true =>
    if arg[s.optpos + 1]? ≠ none then
      (⟨s.optind + 1, 1, s.optopt, some (arg.drop (s.optpos + 1))⟩, code c)
    else match argv[s.optind + 1]? with
      | some a => (⟨s.optind + 2, 1, s.optopt, some a⟩, code c)
      | none => ({ s with optopt := c }, 63)
  | some false =>
    if arg[s.optpos + 1]? = none then ({ s with optind := s.optind + 1, optpos := 1 }, code c)
    else ({ s with optpos := s.optpos + 1 }, code c)

/-- `getopt` (unistd_full.c:198). -/
def getopt (s : Getopt) : Getopt × Int :=
  match argv[s.optind]? with
  | some (45 :: x :: xs) =>
    if x = 45 ∧ xs = [] then ({ s with optind := s.optind + 1 }, -1)
    else nextOption argv optstring s (45 :: x :: xs)
  | _ => (s, -1)

/-- The results of `n` calls. -/
def calls : Nat → Getopt → List Int
  | 0, _ => []
  | n + 1, s => (getopt argv optstring s).2 :: calls n (getopt argv optstring s).1

/-- The option characters of `cs`, the rest of an argument, and of `args` up to the first operand,
each with whether it is known and has its argument. -/
def options (optstring : List UInt8) : List UInt8 → List (List UInt8) → List (UInt8 × Bool)
  | [], [] => []
  | [], arg :: args =>
    match arg with
    | 45 :: x :: xs => if x = 45 ∧ xs = [] then [] else options optstring (x :: xs) args
    | _ => []
  | c :: cs, args =>
    match takesArg optstring c with
    | none => (c, false) :: options optstring cs args
    | some false => (c, true) :: options optstring cs args
    | some true =>
      if cs ≠ [] then (c, true) :: options optstring [] args
      else
        match args with
        | _ :: args => (c, true) :: options optstring [] args
        | [] => [(c, false)]
termination_by cs args => cs.length + args.flatten.length + args.length

/-- What a call should return for an option: the character, or `'?'`. -/
def report (o : UInt8 × Bool) : Int := if o.2 then code o.1 else 63

/-- The calls from the initial state report every option before the first operand once, and
then comes the first `-1`. -/
def Reported (argv : List (List UInt8)) (optstring : List UInt8) : Prop :=
  let out := (options optstring [] (argv.drop 1)).map report
  calls argv optstring (out.length + 1) init = out ++ [-1] ∧ -1 ∉ out

/-- `cs` and `args` are still to be read. -/
inductive Reads (argv : List (List UInt8)) (s : Getopt) : List UInt8 → List (List UInt8) → Prop
  | start {args} (hpos : s.optpos = 1) (hdrop : argv.drop s.optind = args) : Reads argv s [] args
  | inside {c x cs xs args} (hne : ¬ (x = 45 ∧ xs = []))
    (hdrop : argv.drop s.optind = (45 :: x :: xs) :: args)
    (hrest : (45 :: x :: xs).drop s.optpos = c :: cs) : Reads argv s (c :: cs) args

variable {argv optstring} {s : Getopt} {c : UInt8} {cs out : List UInt8}
  {args : List (List UInt8)}

/-- A call in the middle of an argument. -/
theorem Reads.getopt_eq (h : Reads argv s (c :: cs) args) (optstring : List UInt8) : ∃ arg,
    getopt argv optstring s = nextOption argv optstring s arg ∧ arg.getD s.optpos 0 = c ∧
    arg[s.optpos + 1]? = cs.head? ∧ argv.drop (s.optind + 1) = args ∧
    (cs ≠ [] → Reads argv { s with optpos := s.optpos + 1 } cs args) := by
  obtain - | @⟨_, x, _, xs, _, hne, hdrop, hrest⟩ := h
  have hget : argv[s.optind]? = some (45 :: x :: xs) := by rw [← head?_drop, hdrop]; rfl
  have hnext : (45 :: x :: xs).drop (s.optpos + 1) = cs := by rw [← tail_drop, hrest]; rfl
  refine ⟨45 :: x :: xs, by simp only [getopt, hget, if_neg hne], ?_, ?_, ?_, fun hcs => ?_⟩
  · rw [getD_eq_getElem?_getD, ← head?_drop, hrest]
    rfl
  · rw [← head?_drop, hnext]
  · rw [← tail_drop, hdrop]
    rfl
  · obtain ⟨d, ds, rfl⟩ := exists_cons_of_ne_nil hcs
    exact .inside hne hdrop hnext

/-- What the calls from `s` return if `out` are the options to come: all of them and then `-1` if
they are good, and else no `-1` in the end, however long one calls. -/
structure Follows (argv : List (List UInt8)) (optstring : List UInt8) (s : Getopt)
    (out : List (UInt8 × Bool)) : Prop where
  good : (∀ o ∈ out, o.2 = true) →
    calls argv optstring (out.length + 1) s = out.map report ++ [-1]
  bad : (∃ o ∈ out, o.2 = false) → ∀ n ≥ out.length,
    (calls argv optstring (n + 1) s).getLast? = some 63

/-- A good option is reported, and the rest follows. -/
theorem Follows.cons {s' : Getopt} {out : List (UInt8 × Bool)} (h : Follows argv optstring s' out)
    (hget : getopt argv optstring s = (s', code c)) :
    Follows argv optstring s ((c, true) :: out) where
  good hall := by
    rw [length_cons, calls, hget, h.good fun o ho => hall o (mem_cons_of_mem _ ho)]
    rfl
  bad := by
    rintro ⟨o, ho, hfalse⟩ n hn
    have hbad : ∃ o ∈ out, o.2 = false := by
      obtain rfl | ho := mem_cons.1 ho
      · cases hfalse
      · exact ⟨o, ho, hfalse⟩
    obtain ⟨m, rfl⟩ : ∃ m, n = m + 1 := ⟨n - 1, by rw [length_cons] at hn; omega⟩
    have hlast := h.bad hbad m (Nat.le_of_succ_le_succ hn)
    rw [calls, hget, getLast?_cons, hlast]
    rfl

/-- At an unknown option, or one without its argument, every call returns `'?'`. -/
theorem Reads.stuck (h : Reads argv s (c :: cs) args)
    (hbad : takesArg optstring c = none ∨
      takesArg optstring c = some true ∧ cs = [] ∧ args = []) (n : Nat) :
    calls argv optstring n s = replicate n 63 := by
  induction n generalizing s with
  | zero => rfl
  | succ n ih =>
    have hget : getopt argv optstring s = ({ s with optopt := c }, 63) := by
      obtain ⟨arg, hget, rfl, hnext, hrest, -⟩ := h.getopt_eq optstring
      obtain htakes | ⟨htakes, rfl, rfl⟩ := hbad
      · simp only [hget, nextOption, htakes]
      · have hend : argv[s.optind + 1]? = none := by rw [← head?_drop, hrest]; rfl
        simp only [hget, nextOption, htakes, hnext, hend, head?_nil, ne_eq, not_true_eq_false,
          if_false]
    have hnext : Reads argv { s with optopt := c } (c :: cs) args := by
      obtain - | ⟨hne, hdrop, hrest⟩ := h
      exact .inside hne hdrop hrest
    rw [calls, hget, ih hnext]
    rfl

theorem Reads.follows_stuck (h : Reads argv s (c :: cs) args)
    (hbad : takesArg optstring c = none ∨
      takesArg optstring c = some true ∧ cs = [] ∧ args = []) (out : List (UInt8 × Bool)) :
    Follows argv optstring s ((c, false) :: out) where
  good hall := absurd (hall _ mem_cons_self) Bool.false_ne_true
  bad _ n _ := by rw [h.stuck hbad, getLast?_replicate, if_neg n.succ_ne_zero]

/-- At an operand, at `--` and at the end the calls return `-1`. -/
theorem Reads.follows_stop (h : Reads argv s [] args)
    (hstop : ∀ x xs, args.head? = some (45 :: x :: xs) → x = 45 ∧ xs = []) :
    Follows argv optstring s [] where
  good _ := by
    obtain ⟨-, hdrop⟩ := h
    refine congrArg (· :: []) (?_ : (getopt argv optstring s).2 = -1)
    rw [getopt]
    split
    · next x xs hget =>
      rw [← head?_drop, hdrop] at hget
      rw [if_pos (hstop x xs hget)]
    · rfl
  bad := by
    rintro ⟨o, ho, -⟩
    cases ho

/-- By the recursion of `options`. -/
theorem Reads.follows (h : Reads argv s cs args) :
    Follows argv optstring s (options optstring cs args) := by
  induction cs, args using options.induct optstring generalizing s with
  | case1 =>
    -- no argument is left
    rw [options]
    exact h.follows_stop fun _ _ hhead => by cases hhead
  | case2 args x xs hend =>
    -- `--`
    rw [options, if_pos hend]
    refine h.follows_stop fun y ys hhead => ?_
    cases hhead
    exact hend
  | case3 args x xs hne ih =>
    -- the next word has options
    rw [options, if_neg hne]
    obtain ⟨hpos, hdrop⟩ := h
    exact ih (.inside hne hdrop (by rw [hpos]; rfl))
  | case4 arg args hoperand =>
    -- an operand
    rw [options.eq_3 _ _ _ hoperand]
    exact h.follows_stop fun x xs hhead => (hoperand x xs (Option.some.inj hhead)).elim
  | case5 c cs args htakes ih =>
    -- an unknown option: the calls do not get past it
    rw [options.eq_def]
    simp only [htakes]
    exact h.follows_stuck (.inl htakes) _
  | case6 c cs args htakes ih =>
    -- an option alone or followed by others in its word
    rw [options.eq_def]
    simp only [htakes]
    obtain ⟨arg, hget, rfl, hnext, hrest, hreads⟩ := h.getopt_eq optstring
    simp only [nextOption, htakes, hnext, head?_eq_none_iff] at hget
    split at hget
    · next hnil =>
      subst hnil
      exact (ih (.start rfl hrest)).cons hget
    · next hcs => exact (ih (hreads hcs)).cons hget
  | case7 c cs args htakes hcs ih =>
    -- the rest of the word is its argument
    obtain ⟨arg, hget, rfl, hnext, hrest, -⟩ := h.getopt_eq optstring
    obtain ⟨d, ds, rfl⟩ := exists_cons_of_ne_nil hcs
    simp only [nextOption, htakes, hnext] at hget
    rw [options.eq_def]
    simp only [htakes]
    exact (ih (.start rfl hrest)).cons hget
  | case8 c cs htakes hcs a args ih =>
    -- the next word is its argument
    obtain rfl := Classical.not_not.1 hcs
    obtain ⟨arg, hget, rfl, hnext, hrest, -⟩ := h.getopt_eq optstring
    have ha : argv[s.optind + 1]? = some a := by rw [← head?_drop, hrest]; rfl
    have hdrop : argv.drop (s.optind + 2) = args := by rw [← tail_drop, hrest]; rfl
    simp only [nextOption, htakes, hnext, ha] at hget
    rw [options, htakes]
    exact (ih (.start rfl hdrop)).cons hget
  | case9 c cs htakes hcs =>
    -- there is no next word
    obtain rfl := Classical.not_not.1 hcs
    rw [options, htakes]
    exact h.follows_stuck (.inr ⟨htakes, rfl, rfl⟩) _

/-- **The calls report every option once and then return `-1`** exactly if every option is known,
has its argument and is not the byte 255. -/
theorem reported_iff (argv : List (List UInt8)) (optstring : List UInt8) :
    Reported argv optstring ↔
      ∀ o ∈ options optstring [] (argv.drop 1), o.2 = true ∧ o.1 ≠ 255 := by
  have hfollows : Follows argv optstring init (options optstring [] (argv.drop 1)) :=
    (Reads.start rfl rfl).follows
  rw [Reported]
  generalize options optstring [] (argv.drop 1) = out at hfollows
  rw [length_map]
  refine ⟨fun ⟨hcalls, hmem⟩ o ho => ?_, fun hgood => ⟨hfollows.good fun o ho => (hgood o ho).1,
    fun hmem => ?_⟩⟩
  · have htrue : o.2 = true := by
      refine eq_true_of_ne_false fun hfalse => ?_
      have hlast := hfollows.bad ⟨o, ho, hfalse⟩ out.length (Nat.le_refl _)
      rw [hcalls, getLast?_append] at hlast
      cases hlast
    refine ⟨htrue, fun h255 => hmem (mem_map.2 ⟨o, ho, ?_⟩)⟩
    rw [report, if_pos htrue, h255]
    rfl
  · obtain ⟨o, ho, hreport⟩ := mem_map.1 hmem
    obtain ⟨htrue, h255⟩ := hgood o ho
    rw [report, if_pos htrue] at hreport
    exact h255 (code_inj (hreport.trans (by decide : -1 = code 255)))

/-- `-ab -o x file` with the options `abo:`. -/
theorem reported_abo :
    Reported [[112], [45, 97, 98], [45, 111], [120], [102]] [97, 98, 111, 58] := by
  have hopts : options [97, 98, 111, 58] [] [[45, 97, 98], [45, 111], [120], [102]]
      = [(97, true), (98, true), (111, true)] := by
    simp [options, takesArg]
  have hgood : ∀ o ∈ [((97 : UInt8), true), (98, true), (111, true)], o.2 = true ∧ o.1 ≠ 255 := by
    simp
  exact (reported_iff _ _).2 (hopts ▸ hgood)

/-- At an unknown option every call returns `'?'`. -/
theorem calls_unknown (n : Nat) (o : UInt8) :
    calls [[112], [45, 120]] [] n ⟨1, 1, o, none⟩ = replicate n 63 := by
  induction n generalizing o with
  | zero => rfl
  | succ n ih => exact congrArg (63 :: ·) (ih 120)

theorem unknown_stays : ¬ ∃ n, -1 ∈ calls [[112], [45, 120]] [] n init := by
  rintro ⟨n, h⟩
  rw [init, calls_unknown] at h
  cases eq_of_mem_replicate h

end Getopt

end UnixOs
