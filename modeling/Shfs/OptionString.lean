import Shfs.Lib.Loop
import Shfs.Options

/-!
# How `parse_options` goes over its string

`parseOptions` says what `parse_options` leaves; here is how it gets there. The clause of
`cachesize=` counts the bits of a number in a loop of its own, on a signed `int`, and `looks` gives
the last position of the string that is looked at for each of the options. All clauses stop at the
NUL that ends their option, except that of `rmode=`: `parse_mode` takes three octets.

`parseRun_eq` says that it gets to what `parseOptions` says, and `parsesSafely_iff` for which
strings the loop ends and all positions are inside: those with a number behind each `cachesize=`
that is not 0, and with two octets behind each `rmode=`.
-/

namespace Shfs

open Lib

/-! ## The size of the cache -/

/-- `for (j = 0; i; j++) i >>= 1;`, from `i` and `j` on. -/
def shiftLoop (fuel : ℕ) (i : ℤ) (j : ℕ) : Option (Empty ⊕ ℤ × ℕ) :=
  loop (fun s => decide (s.1 ≠ 0)) (fun s => .inr (s.1 >>> (1 : ℕ), s.2 + 1)) fuel (i, j)

/-- **A negative number is shifted for ever**: an arithmetic shift of -1 is -1, so no number of
rounds is enough. -/
theorem shiftLoop_neg (fuel j : ℕ) : shiftLoop fuel (-1) j = none := by
  induction fuel generalizing j with
  | zero => rfl
  | succ fuel ih => exact ih (j + 1)

/-- The exponent of the least power of two that is larger than `n`. -/
def LeastExponent (n j : ℕ) : Prop := n < 2 ^ j ∧ ∀ k, n < 2 ^ k → j ≤ k

/-- It is the number of bits. -/
theorem LeastExponent.eq_size {n j : ℕ} (h : LeastExponent n j) : j = n.size := by
  apply Nat.le_antisymm
  · exact h.2 _ n.lt_size_self
  · exact Nat.size_le.mpr h.1

/-- The number without its last `j` bits, which have all been needed. -/
def Shifted (n : ℕ) (s : ℤ × ℕ) : Prop :=
  s.1 = (n / 2 ^ s.2 : ℕ) ∧ ∀ k, n < 2 ^ k → s.2 ≤ k

/-- A round of the loop. -/
theorem Shifted.next {n : ℕ} {i : ℤ} {j : ℕ} (h : Shifted n (i, j)) (hi : i ≠ 0) :
    Shifted n (i >>> (1 : ℕ), j + 1) ∧ (i >>> (1 : ℕ)).toNat < i.toNat := by
  obtain ⟨hshift, hneed⟩ := h
  dsimp only at hshift hneed
  have hne : n / 2 ^ j ≠ 0 := by
    intro h0
    rw [hshift, h0] at hi
    exact hi rfl
  have hle : 2 ^ j ≤ n := by
    by_contra hlt
    exact hne (Nat.div_eq_of_lt (Nat.not_le.mp hlt))
  have hnext : i >>> (1 : ℕ) = (n / 2 ^ (j + 1) : ℕ) := by
    rw [hshift, ← Int.natCast_shiftRight, Nat.shiftRight_eq_div_pow, Nat.div_div_eq_div_mul,
      Nat.pow_one, Nat.pow_succ]
  refine ⟨⟨hnext, fun k hk => ?_⟩, ?_⟩
  · exact (Nat.pow_lt_pow_iff_right (by decide)).mp (hle.trans_lt hk)
  · rw [hnext, hshift, Int.toNat_natCast, Int.toNat_natCast, Nat.pow_succ,
      ← Nat.div_div_eq_div_mul]
    exact Nat.div_lt_self (Nat.pos_of_ne_zero hne) (by decide)

theorem Shifted.start (n : ℕ) : Shifted n (n, 0) := by
  refine ⟨?_, fun k _ => Nat.zero_le k⟩
  rw [Nat.pow_zero, Nat.div_one]

/-- Where the loop has ended, all bits have been counted. -/
theorem Shifted.least {n : ℕ} {i : ℤ} {j : ℕ} (h : Shifted n (i, j)) (hi : i = 0) :
    LeastExponent n j := by
  obtain ⟨hshift, hneed⟩ := h
  dsimp only at hshift hneed
  rw [hi, eq_comm, Int.natCast_eq_zero, Nat.div_eq_zero_iff] at hshift
  exact ⟨hshift.resolve_left (Nat.two_pow_pos j).ne', hneed⟩

/-- **The loop counts the bits** of a number: where it ends, its counter is the least exponent whose
power of two is above the number. -/
theorem shiftLoop_sound {n fuel j : ℕ} {i : ℤ} (h : shiftLoop fuel n 0 = some (.inr (i, j))) :
    LeastExponent n j := by
  have hbody : ∀ s : ℤ × ℕ, Shifted n s → decide (s.1 ≠ 0) = true →
      Sum.elim (fun _ : Empty => True) (Shifted n) (.inr (s.1 >>> (1 : ℕ), s.2 + 1)) := by
    rintro ⟨i, j⟩ hs hne
    exact (hs.next (of_decide_eq_true hne)).1
  obtain ⟨hs, hzero⟩ := loop_rule (Shifted n) _ hbody (Shifted.start n) h
  exact hs.least (by simpa using hzero)

/-- The loop ends. -/
theorem shiftLoop_total {n fuel : ℕ} (hfuel : n ≤ fuel) :
    ∃ i j, shiftLoop fuel n 0 = some (.inr (i, j)) := by
  have hpos : ∀ s : ℤ × ℕ, Shifted n s → decide (s.1 ≠ 0) = true → 0 < s.1.toNat := by
    rintro ⟨i, j⟩ ⟨hshift, -⟩ hne
    dsimp only at hshift hne ⊢
    have hi := of_decide_eq_true hne
    rw [hshift] at hi ⊢
    rw [Int.toNat_natCast]
    exact Nat.pos_of_ne_zero fun h0 => hi (by rw [h0]; rfl)
  have hbody : ∀ s : ℤ × ℕ, Shifted n s → decide (s.1 ≠ 0) = true → ∀ s',
      (.inr (s.1 >>> (1 : ℕ), s.2 + 1) : Empty ⊕ ℤ × ℕ) = .inr s' →
        Shifted n s' ∧ s'.1.toNat < s.1.toNat := by
    rintro ⟨i, j⟩ hs hne _ ⟨⟩
    exact hs.next (of_decide_eq_true hne)
  obtain ⟨r, hr⟩ := loop_total (Shifted n) (fun s => s.1.toNat) hpos hbody (Shifted.start n) hfuel
  rcases r with e | ⟨i, j⟩
  · cases e
  · exact ⟨i, j, hr⟩

/-! ## The parser -/

/-- What a clause does when it ends, with the loop of `cachesize=` run. -/
def Clause.runLoop (fuel : ℕ) (c : Clause) (arg rest : Bytes) (info : SbInfo) : Option SbInfo :=
  match c with
  | cachesize =>
    match shiftLoop fuel (decVal arg - 1) 0 with
    | some (.inr (_, j)) => some { info with fcacheSize := 2 ^ j * 4096 }
    | _ => none
  | c => some (c.run arg rest info)

/-- `parse_options`, of what is left of the options: its result and what it has set, unless `fuel`
rounds are not enough for a loop. -/
def parseRun (fuel : ℕ) : List Bytes → SbInfo → Option (ℤ × SbInfo)
  | [], info => some (0, info)
  | p :: ps, info =>
    match clauseOf p with
    | none => parseRun fuel ps info
    | some c =>
      let arg := p.drop c.key.length
      if c.verdict arg = .ugly then some (-1, info)
      else
        match c.runLoop fuel arg (joinWith comma ps) info with
        | some info => parseRun fuel ps info
        | none => none

/-- The last octet of its argument that a clause looks at, where the NUL is that at `arg.length`. -/
def Clause.furthest (c : Clause) (arg : Bytes) : ℕ :=
  if c = .rmode ∧ c.verdict arg = .next then max arg.length 2 else arg.length

/-- The last positions that are looked at, for the options from the position `s` on. -/
def looks (s : ℕ) : List Bytes → List ℕ
  | [] => []
  | p :: ps =>
    (s + p.length) :: -- `strsep` and `strncmp`
      match clauseOf p with
      | none => looks (s + p.length + 1) ps
      | some c =>
        let arg := p.drop c.key.length
        (s + c.key.length + c.furthest arg) ::
          if c.verdict arg = .next then looks (s + p.length + 1) ps else []

/-! ## Safe strings -/

/-- The cache for `N` pages: none, or the least power of two, without overflow of an `int`. -/
structure CacheSize (N size : ℕ) : Prop where
  disabled : N = 0 → size = 0
  pages : N ≠ 0 → ∃ k, size = 2 ^ k * 4096 ∧ N ≤ 2 ^ k ∧ ∀ k', N ≤ 2 ^ k' → k ≤ k'
  int : size < 2 ^ 31

/-- **A string is parsed safely.** -/
structure ParsesSafely (opts : Bytes) : Prop where
  ends : ∀ info, ∃ fuel r, parseRun fuel (opts.splitOn comma) info = some r
  inside : ∀ pos ∈ looks 0 (opts.splitOn comma), pos ≤ opts.length
  cachesize : ∀ before p after, opts.splitOn comma = before ++ p :: after →
    clauseOf p = some .cachesize → (∀ q ∈ after, clauseOf q ≠ some .cachesize) →
    let N := p.drop Clause.cachesize.key.length
    N ≠ [] → (∀ b ∈ N, isDigit b = true) → ∀ info fuel info',
      parseRun fuel (opts.splitOn comma) info = some (0, info') →
      CacheSize (decVal N) info'.fcacheSize

/-- What holds of every option that is reached, and of those behind it. -/
def EveryReached (P : Bytes → List Bytes → Prop) (ps : List Bytes) : Prop :=
  ∀ before p after, ps = before ++ p :: after → (∀ q ∈ before, goesOn q = true) → P p after

/-- `parse_mode` finds its octets. -/
def ModeInside (p : Bytes) (after : List Bytes) : Prop :=
  clauseOf p = some .rmode → (p.drop Clause.rmode.key.length).length ≤ 3 →
    2 ≤ (joinWith comma (p.drop Clause.rmode.key.length :: after)).length

/-- A number that is not 0 behind `cachesize=`, and two octets behind `rmode=`. -/
structure SafeOption (p : Bytes) (after : List Bytes) : Prop where
  cachesize : clauseOf p = some .cachesize →
    (p.drop Clause.cachesize.key.length).length ≤ 5 →
    decVal (p.drop Clause.cachesize.key.length) ≠ 0
  rmode : ModeInside p after

/-- **The strings whose options are safe**, up to the first one that stops the parser. -/
def SafeOptions (opts : Bytes) : Prop := EveryReached SafeOption (opts.splitOn comma)

theorem everyReached_nil (P : Bytes → List Bytes → Prop) : EveryReached P [] := by
  intro before p after h
  exact absurd h.symm (List.append_ne_nil_of_right_ne_nil _ (List.cons_ne_nil _ _))

theorem everyReached_cons {P : Bytes → List Bytes → Prop} {p : Bytes} {ps : List Bytes} :
    EveryReached P (p :: ps) ↔ P p ps ∧ (goesOn p = true → EveryReached P ps) := by
  constructor
  · intro h
    refine ⟨h [] p ps rfl (by simp), fun hp before q after hq hbefore => ?_⟩
    refine h (p :: before) q after (by rw [hq, List.cons_append]) ?_
    exact List.forall_mem_cons.mpr ⟨hp, hbefore⟩
  · rintro ⟨hfirst, hrest⟩ before q after hq hbefore
    cases before with
    | nil =>
      obtain ⟨rfl, rfl⟩ := List.cons_eq_cons.mp hq
      exact hfirst
    | cons p' before =>
      obtain ⟨rfl, htail⟩ := List.cons_eq_cons.mp hq
      obtain ⟨hp, hbefore⟩ := List.forall_mem_cons.mp hbefore
      exact hrest hp before q after htail hbefore

theorem decValFrom_lt (bs : Bytes) (acc : ℕ) : decValFrom acc bs < (acc + 1) * 10 ^ bs.length := by
  induction bs generalizing acc with
  | nil => simp [decValFrom]
  | cons b bs ih =>
    rw [decValFrom, List.length_cons, Nat.pow_succ', ← Nat.mul_assoc]
    have hpos : 0 < 10 ^ bs.length := Nat.pow_pos (by decide)
    split
    · rename_i hdigit
      have hle : acc * 10 + (b.toNat - 48) + 1 ≤ (acc + 1) * 10 := by
        simp only [isDigit, Bool.and_eq_true, decide_eq_true_eq] at hdigit
        omega
      exact (ih _).trans_le (Nat.mul_le_mul_right _ hle)
    · have hle : acc < (acc + 1) * 10 := by omega
      exact hle.trans_le (Nat.le_mul_of_pos_right _ hpos)

/-- Five digits. -/
theorem decVal_lt {arg : Bytes} (h : arg.length ≤ 5) : decVal arg < 10 ^ 5 := by
  refine (decValFrom_lt arg 0).trans_le ?_
  rw [Nat.zero_add, Nat.one_mul]
  exact Nat.pow_le_pow_right (by decide) h

section Verdicts

variable {c : Clause} {p arg rest : Bytes} {ps : List Bytes} {info info' : SbInfo} {fuel : ℕ}

theorem verdict_spin_iff : c.verdict arg = .spin ↔
    c = .cachesize ∧ arg.length ≤ 5 ∧ decVal arg = 0 := by
  cases c with
  | cachesize =>
    simp only [Clause.verdict]
    split
    · rename_i hlong
      simp [Nat.not_le.mpr hlong]
    · rename_i hshort
      split
      · rename_i hzero
        simp [Nat.not_lt.mp hshort, hzero]
      · rename_i hzero
        simp [hzero]
  | mnt | cachemax | debug | ttl | uid | gid | rmode | fd | version =>
    simp only [Clause.verdict]
    split <;> simp
  | ro | rw | suid | nosuid | dev | nodev | exec | noexec | preserve =>
    simp [Clause.verdict]

/-- The number of `cachesize=`, where that ends. -/
theorem verdict_cachesize_next (hv : Clause.cachesize.verdict arg = .next) :
    arg.length ≤ 5 ∧ 0 < decVal arg := by
  simp only [Clause.verdict] at hv
  split at hv
  · cases hv
  split at hv
  · cases hv
  · exact ⟨Nat.not_lt.mp ‹_›, Nat.pos_of_ne_zero ‹_›⟩

/-- The loop of `cachesize=`, with enough fuel. -/
theorem runLoop_cachesize (hv : Clause.cachesize.verdict arg = .next) (hfuel : 10 ^ 5 ≤ fuel)
    (rest : Bytes) (info : SbInfo) :
    ∃ info', Clause.cachesize.runLoop fuel arg rest info = some info' := by
  obtain ⟨hlen, hpos⟩ := verdict_cachesize_next hv
  have henough : decVal arg - 1 ≤ fuel := (Nat.sub_le ..).trans ((decVal_lt hlen).le.trans hfuel)
  obtain ⟨i, j, hj⟩ := shiftLoop_total henough
  rw [Nat.cast_sub hpos, Nat.cast_one] at hj
  exact ⟨{ info with fcacheSize := 2 ^ j * 4096 }, by rw [Clause.runLoop, hj]⟩

/-- What it leaves, with any. -/
theorem runLoop_cachesize_eq (hv : Clause.cachesize.verdict arg = .next) (rest : Bytes)
    (h : Clause.cachesize.runLoop fuel arg rest info = some info') :
    ∃ j, LeastExponent (decVal arg - 1) j ∧ info' = { info with fcacheSize := 2 ^ j * 4096 } := by
  obtain ⟨-, hpos⟩ := verdict_cachesize_next hv
  rw [Clause.runLoop] at h
  split at h
  · next i j hloop =>
    rw [← Nat.cast_one, ← Nat.cast_sub hpos] at hloop
    exact ⟨j, shiftLoop_sound hloop, (Option.some.inj h).symm⟩
  · cases h

/-- The other clauses have no loop. -/
theorem runLoop_other (hc : c ≠ .cachesize) (fuel : ℕ) (arg rest : Bytes) (info : SbInfo) :
    c.runLoop fuel arg rest info = some (c.run arg rest info) := by
  cases c with
  | cachesize => exact absurd rfl hc
  | mnt | ro | rw | suid | nosuid | dev | nodev | exec | noexec | preserve | cachemax | debug | ttl
  | uid | gid | rmode | fd | version => rfl

/-- A clause that ends does what `Clause.run` says. -/
theorem runLoop_eq (hv : c.verdict arg = .next) (hfuel : 10 ^ 5 ≤ fuel) (rest : Bytes)
    (info : SbInfo) : c.runLoop fuel arg rest info = some (c.run arg rest info) := by
  by_cases hc : c = .cachesize
  · subst hc
    obtain ⟨info', hrun⟩ := runLoop_cachesize hv hfuel rest info
    obtain ⟨j, hj, rfl⟩ := runLoop_cachesize_eq hv rest hrun
    rw [hrun, Clause.run, hj.eq_size]
  · exact runLoop_other hc fuel arg rest info

/-- The clause that does not end. -/
theorem runLoop_spin (hv : c.verdict arg = .spin) (fuel : ℕ) (rest : Bytes) (info : SbInfo) :
    c.runLoop fuel arg rest info = none := by
  obtain ⟨rfl, -, hzero⟩ := verdict_spin_iff.mp hv
  have hloop := shiftLoop_neg fuel 0
  rw [Clause.runLoop, hzero, Nat.cast_zero, zero_sub, hloop]

theorem parseRun_cons (fuel : ℕ) (p : Bytes) (ps : List Bytes) (info : SbInfo) :
    parseRun fuel (p :: ps) info =
      match clauseOf p with
      | none => parseRun fuel ps info
      | some c =>
        if c.verdict (p.drop c.key.length) = .ugly then some (-1, info)
        else
          match c.runLoop fuel (p.drop c.key.length) (joinWith comma ps) info with
          | some info => parseRun fuel ps info
          | none => none := rfl

/-- What one clause does to the rest of the run. -/
theorem parseRun_none (h : clauseOf p = none) (fuel : ℕ) (info : SbInfo) :
    parseRun fuel (p :: ps) info = parseRun fuel ps info := by
  rw [parseRun_cons, h]

theorem parseRun_ugly (h : clauseOf p = some c) (hv : c.verdict (p.drop c.key.length) = .ugly)
    (fuel : ℕ) (info : SbInfo) : parseRun fuel (p :: ps) info = some (-1, info) := by
  simp only [parseRun_cons, h, hv, if_true]

theorem parseRun_spin (h : clauseOf p = some c) (hv : c.verdict (p.drop c.key.length) = .spin)
    (fuel : ℕ) (info : SbInfo) : parseRun fuel (p :: ps) info = none := by
  simp only [parseRun_cons, h, hv, runLoop_spin hv, reduceCtorEq, if_false]

theorem parseRun_stop (h : clauseOf p = some c) (hv : c.verdict (p.drop c.key.length) = .next)
    (hrun : c.runLoop fuel (p.drop c.key.length) (joinWith comma ps) info = none) :
    parseRun fuel (p :: ps) info = none := by
  simp only [parseRun_cons, h, hv, hrun, reduceCtorEq, if_false]

theorem parseRun_next (h : clauseOf p = some c) (hv : c.verdict (p.drop c.key.length) = .next)
    (hrun : c.runLoop fuel (p.drop c.key.length) (joinWith comma ps) info = some info') :
    parseRun fuel (p :: ps) info = parseRun fuel ps info' := by
  simp only [parseRun_cons, h, hv, hrun, reduceCtorEq, if_false]

/-- **The parser ends** unless it comes to a clause that does not. The options behind one that stops
the parser are never reached. -/
theorem parseRun_ends (hfuel : 10 ^ 5 ≤ fuel) (ps : List Bytes) (info : SbInfo)
    (h : EveryReached (fun p _ => ∀ c, clauseOf p = some c →
      c.verdict (p.drop c.key.length) ≠ .spin) ps) :
    ∃ r, parseRun fuel ps info = some r := by
  induction ps generalizing info with
  | nil => exact ⟨_, rfl⟩
  | cons p ps ih =>
    obtain ⟨hfirst, hrest⟩ := everyReached_cons.mp h
    cases hc : clauseOf p with
    | none =>
      rw [parseRun_none hc]
      exact ih info (hrest (goesOn_none hc))
    | some c =>
      cases hv : c.verdict (p.drop c.key.length) with
      | spin => exact absurd hv (hfirst c hc)
      | ugly => exact ⟨_, parseRun_ugly hc hv fuel info⟩
      | next =>
        rw [parseRun_next hc hv (runLoop_eq hv hfuel ..)]
        exact ih _ (hrest (goesOn_next hc hv))

/-- The run comes to an option that is reached. -/
theorem parseRun_append {before after : List Bytes} {r : ℤ × SbInfo} (hr : r.1 = 0)
    (h : parseRun fuel (before ++ after) info = some r) :
    ∃ info', parseRun fuel after info' = some r := by
  induction before generalizing info with
  | nil => exact ⟨info, h⟩
  | cons q before ih =>
    rw [List.cons_append] at h
    cases hc : clauseOf q with
    | none =>
      rw [parseRun_none hc] at h
      exact ih h
    | some c =>
      cases hv : c.verdict (q.drop c.key.length) with
      | spin =>
        rw [parseRun_spin hc hv] at h
        cases h
      | ugly =>
        rw [parseRun_ugly hc hv] at h
        obtain rfl := Option.some.inj h
        cases hr
      | next =>
        cases hrun : c.runLoop fuel (q.drop c.key.length) (joinWith comma (before ++ after))
          info with
        | none =>
          rw [parseRun_stop hc hv hrun] at h
          cases h
        | some info' =>
          rw [parseRun_next hc hv hrun] at h
          exact ih h

/-- The size of the cache is left alone by the other clauses. -/
theorem parseRun_fcacheSize {r : ℤ × SbInfo} (hps : ∀ q ∈ ps, clauseOf q ≠ some .cachesize)
    (h : parseRun fuel ps info = some r) : r.2.fcacheSize = info.fcacheSize := by
  induction ps generalizing info with
  | nil =>
    obtain rfl := Option.some.inj h
    rfl
  | cons p ps ih =>
    obtain ⟨hp, hps⟩ := List.forall_mem_cons.mp hps
    cases hc : clauseOf p with
    | none =>
      rw [parseRun_none hc] at h
      exact ih hps h
    | some c =>
      have hne : c ≠ .cachesize := by
        rintro rfl
        exact hp hc
      cases hv : c.verdict (p.drop c.key.length) with
      | spin =>
        rw [parseRun_spin hc hv] at h
        cases h
      | ugly =>
        rw [parseRun_ugly hc hv] at h
        obtain rfl := Option.some.inj h
        rfl
      | next =>
        rw [parseRun_next hc hv (runLoop_other hne ..)] at h
        rw [ih hps h]
        cases c <;> first | rfl | exact absurd rfl hne

/-- A clause that does not end keeps the parser from its end. -/
theorem parseRun_stuck {before after : List Bytes} (hc : clauseOf p = some c)
    (hv : c.verdict (p.drop c.key.length) = .spin) (hbefore : ∀ q ∈ before, goesOn q = true)
    (fuel : ℕ) (info : SbInfo) : parseRun fuel (before ++ p :: after) info = none := by
  induction before generalizing info with
  | nil => exact parseRun_spin hc hv fuel info
  | cons q before ih =>
    obtain ⟨hq, hbefore⟩ := List.forall_mem_cons.mp hbefore
    rw [List.cons_append]
    cases hcq : clauseOf q with
    | none =>
      rw [parseRun_none hcq]
      exact ih hbefore info
    | some c' =>
      have hv' : c'.verdict (q.drop c'.key.length) = .next := by
        by_contra hne
        exact goesOn_stop hcq hne hq
      cases hrun : c'.runLoop fuel (q.drop c'.key.length) (joinWith comma (before ++ p :: after))
        info with
      | none => exact parseRun_stop hcq hv' hrun
      | some info' =>
        rw [parseRun_next hcq hv' hrun]
        exact ih hbefore info'

/-- **What the run returns** is what `parseOptions` says of it: the result and the options when it
ends, and no result exactly where a clause spins. So the options that a mount works with are those
of `parse_options` with its inner loops. -/
theorem parseRun_eq (hfuel : 10 ^ 5 ≤ fuel) (ps : List Bytes) (info : SbInfo) :
    parseRun fuel ps info =
      match (parseLoop ps info).verdict with
      | .next => some (0, (parseLoop ps info).info)
      | .ugly => some (-1, (parseLoop ps info).info)
      | .spin => none := by
  induction ps generalizing info with
  | nil => rfl
  | cons p ps ih =>
    cases hc : clauseOf p with
    | none => rw [parseRun_none hc, parseLoop_none hc, ih]
    | some c =>
      cases hv : c.verdict (p.drop c.key.length) with
      | spin =>
        have hne : c.verdict (p.drop c.key.length) ≠ .next := by
          rw [hv]
          exact Verdict.noConfusion
        rw [parseRun_spin hc hv, parseLoop_stop hc hne, hv]
      | ugly =>
        have hne : c.verdict (p.drop c.key.length) ≠ .next := by
          rw [hv]
          exact Verdict.noConfusion
        rw [parseRun_ugly hc hv, parseLoop_stop hc hne, hv]
      | next =>
        rw [parseRun_next hc hv (runLoop_eq hv hfuel ..), parseLoop_next hc hv, ih]

end Verdicts

/-! ## The positions -/

section Positions

variable {c : Clause} {p : Bytes} {ps : List Bytes}

/-- An option is its key and its argument. -/
theorem length_clauseOf (h : clauseOf p = some c) :
    p.length = c.key.length + (p.drop c.key.length).length := by
  have hkey : c.key <+: p := by simpa using List.find?_some h
  have hle := hkey.length_le
  rw [List.length_drop]
  omega

theorem length_joinWith (x y : Bytes) (ps : List Bytes) :
    (joinWith comma ((x ++ y) :: ps)).length = x.length + (joinWith comma (y :: ps)).length := by
  rw [joinWith_flatMap, joinWith_flatMap, List.append_assoc, List.length_append]

theorem verdict_rmode {arg : Bytes} : Clause.rmode.verdict arg = .next ↔ arg.length ≤ 3 := by
  simp only [Clause.verdict]
  split
  · next hlong => simp [Nat.not_le.mpr hlong]
  · next hshort => simp [Nat.not_lt.mp hshort]

/-- What one clause looks at. -/
theorem furthest_iff (h : clauseOf p = some c) :
    c.key.length + c.furthest (p.drop c.key.length) ≤ (joinWith comma (p :: ps)).length ↔
      ModeInside p ps := by
  have hp := length_clauseOf h
  have hle : p.length ≤ (joinWith comma (p :: ps)).length := by
    rw [joinWith_flatMap, List.length_append]
    exact Nat.le_add_right ..
  rw [Clause.furthest]
  split
  · next hmode =>
    obtain ⟨rfl, hv⟩ := hmode
    have hcut := length_joinWith (p.take Clause.rmode.key.length)
      (p.drop Clause.rmode.key.length) ps
    rw [List.take_append_drop, List.length_take] at hcut
    constructor
    · intro hin _ _
      omega
    · intro hin
      have := hin h (verdict_rmode.mp hv)
      omega
  · next hother =>
    refine iff_of_true (hp ▸ hle) fun hmode hshort => absurd ⟨?_, ?_⟩ hother
    · exact Option.some.inj (h.symm.trans hmode)
    · obtain rfl := Option.some.inj (h.symm.trans hmode)
      exact verdict_rmode.mpr hshort

/-- One option, from what is known of those behind it. -/
theorem looks_cons_iff {s : ℕ}
    (htail : (∀ pos ∈ looks (s + p.length + 1) ps, pos ≤ s + (joinWith comma (p :: ps)).length) ↔
      EveryReached ModeInside ps) :
    (∀ pos ∈ looks s (p :: ps), pos ≤ s + (joinWith comma (p :: ps)).length) ↔
      EveryReached ModeInside (p :: ps) := by
  have hle : s + p.length ≤ s + (joinWith comma (p :: ps)).length := by
    rw [joinWith_flatMap, List.length_append]
    omega
  rw [everyReached_cons, looks, List.forall_mem_cons, and_iff_right hle]
  cases hc : clauseOf p with
  | none =>
    have hmode : ModeInside p ps := by
      intro h
      rw [hc] at h
      cases h
    rw [and_iff_right hmode, forall_prop_of_true (goesOn_none hc)]
    exact htail
  | some c =>
    dsimp only
    rw [List.forall_mem_cons, Nat.add_assoc, Nat.add_le_add_iff_left, furthest_iff hc]
    refine and_congr_right fun _ => ?_
    by_cases hv : c.verdict (p.drop c.key.length) = .next
    · rw [if_pos hv, forall_prop_of_true (goesOn_next hc hv)]
      exact htail
    · rw [if_neg hv]
      exact iff_of_true (by simp) fun hgo => absurd hgo (goesOn_stop hc hv)

/-- **The last octets looked at** are those of the string, if `parse_mode` finds all of its own. -/
theorem looks_iff (s : ℕ) (p : Bytes) (ps : List Bytes) :
    (∀ pos ∈ looks s (p :: ps), pos ≤ s + (joinWith comma (p :: ps)).length) ↔
      EveryReached ModeInside (p :: ps) := by
  induction ps generalizing s p with
  | nil => exact looks_cons_iff (iff_of_true (by simp [looks]) (everyReached_nil _))
  | cons q qs ih =>
    apply looks_cons_iff
    have hbehind : s + (joinWith comma (p :: q :: qs)).length =
        s + p.length + 1 + (joinWith comma (q :: qs)).length := by
      rw [joinWith_cons_cons, List.length_append, List.length_cons]
      omega
    rw [hbehind]
    exact ih (s + p.length + 1) q

end Positions

/-! ## Strings that are parsed safely -/

/-- The number of pages, as a power of two. -/
theorem CacheSize.of_least {N j : ℕ} (hpos : 0 < N) (hN : N < 10 ^ 5)
    (hj : LeastExponent (N - 1) j) : CacheSize N (2 ^ j * 4096) := by
  obtain ⟨hlarge, hleast⟩ := hj
  have hshort : j ≤ 17 := hleast 17 (by omega)
  refine ⟨fun h0 => absurd h0 hpos.ne', fun _ => ⟨j, rfl, ?_, fun k hk => ?_⟩, ?_⟩
  · omega
  · exact hleast k (by omega)
  · have hpow : 2 ^ j ≤ 2 ^ 17 := Nat.pow_le_pow_right (by decide) hshort
    omega

/-- **The last `cachesize=` counts**, where the parser returns 0: the size is the power of two that
its number is rounded up to, in pages. -/
theorem cacheSize_parseRun {before after : List Bytes} {p : Bytes} {info info' : SbInfo} {fuel : ℕ}
    (hp : clauseOf p = some .cachesize) (hafter : ∀ q ∈ after, clauseOf q ≠ some .cachesize)
    (h : parseRun fuel (before ++ p :: after) info = some (0, info')) :
    CacheSize (decVal (p.drop Clause.cachesize.key.length)) info'.fcacheSize := by
  obtain ⟨info₁, hreached⟩ := parseRun_append rfl h
  cases hv : Clause.cachesize.verdict (p.drop Clause.cachesize.key.length) with
  | spin =>
    rw [parseRun_spin hp hv] at hreached
    cases hreached
  | ugly =>
    rw [parseRun_ugly hp hv] at hreached
    cases hreached
  | next =>
    cases hrun : Clause.cachesize.runLoop fuel (p.drop Clause.cachesize.key.length)
      (joinWith comma after) info₁ with
    | none =>
      rw [parseRun_stop hp hv hrun] at hreached
      cases hreached
    | some info₂ =>
      rw [parseRun_next hp hv hrun] at hreached
      obtain ⟨j, hj, rfl⟩ := runLoop_cachesize_eq hv _ hrun
      obtain ⟨hlen, hpos⟩ := verdict_cachesize_next hv
      have hkept := parseRun_fcacheSize hafter hreached
      exact hkept ▸ CacheSize.of_least hpos (decVal_lt hlen) hj

/-- **A string is parsed safely** when the number behind each `cachesize=` that is reached is not 0,
and each `rmode=` has two octets of the string behind it. With a 0 the loop over the bits shifts a
negative number for ever, although the manual page offers it; and `parse_mode` looks at three octets
without asking for the end. -/
theorem parsesSafely_iff (opts : Bytes) : ParsesSafely opts ↔ SafeOptions opts := by
  have hjoin : joinWith comma (opts.splitOn comma) = opts := List.intercalate_splitOn comma
  obtain ⟨p₀, ps₀, hsplit⟩ := List.exists_cons_of_ne_nil (List.splitOn_ne_nil comma opts)
  have hlooks := looks_iff 0 p₀ ps₀
  rw [← hsplit, hjoin, Nat.zero_add] at hlooks
  constructor
  · rintro ⟨hends, hinside, -⟩ before p after hopts hbefore
    refine ⟨fun hp hlen hzero => ?_, hlooks.mp hinside before p after hopts hbefore⟩
    obtain ⟨fuel, r, hr⟩ := hends (.start 0 0)
    rw [hopts, parseRun_stuck hp (verdict_spin_iff.mpr ⟨rfl, hlen, hzero⟩) hbefore] at hr
    cases hr
  · intro h
    refine ⟨fun info => ⟨10 ^ 5, parseRun_ends le_rfl _ info ?_⟩, hlooks.mpr ?_, ?_⟩
    · intro before p after hopts hbefore c hc hspin
      obtain ⟨rfl, hlen, hzero⟩ := verdict_spin_iff.mp hspin
      exact (h before p after hopts hbefore).cachesize hc hlen hzero
    · intro before p after hopts hbefore
      exact (h before p after hopts hbefore).rmode
    · intro before p after hopts hp hafter N _ _ info fuel info' hr
      rw [hopts] at hr
      exact cacheSize_parseRun hp hafter hr

/-- The manual page says that this disables the cache; and a mode of one digit is not enough. -/
theorem not_parsesSafely :
    ¬ ParsesSafely (ascii "cachesize=0") ∧ ¬ ParsesSafely (ascii "rmode=7") := by
  constructor
  · intro h
    obtain ⟨fuel, r, hr⟩ := h.ends (.start 0 0)
    have hsplit : (ascii "cachesize=0").splitOn comma = [ascii "cachesize=0"] := by decide
    have hc : clauseOf (ascii "cachesize=0") = some .cachesize := by decide
    rw [hsplit, parseRun_spin hc (by decide)] at hr
    cases hr
  · intro h
    have hsplit : (ascii "rmode=7").splitOn comma = [ascii "rmode=7"] := by decide
    -- the last octet of three behind the six of the key
    have hlook : 8 ∈ looks 0 [ascii "rmode=7"] := by decide
    have hle : 8 ≤ (ascii "rmode=7").length := h.inside 8 (by rwa [hsplit])
    exact absurd hle (by decide)

end Shfs
