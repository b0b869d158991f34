import Shfs.Sock
import Mathlib.Data.Nat.Size

/-!
# Mount options in the kernel

`parse_options` (proc.c) cuts the option string at its commas and compares the front of every
option with the keys of its clauses, in the order of the source. A clause may refuse its argument
(`goto ugly_opts`), and `cachesize=` with the number 0 never comes back from its loop; the options
behind are not looked at then. `parseOptions` also keeps the clauses it has run.

Some clauses are for root only. `unprivileged_iff` says which option strings run none of them:
those without such an option in front of the first one that stops the parser.
-/

namespace Shfs

open Lib

/-- Comma. -/
abbrev comma : Byte := 44

/-- What `parse_options` sets of `shfs_sb_info`, and `debug_level`. The other fields are not for the
user to set. -/
structure SbInfo : Type where
  mountPoint : Bytes
  readonly : Bool
  fmask : UInt32
  preserveOwn : Bool
  fcacheSize : ℕ
  fcacheFree : ℕ
  debugLevel : ℕ
  /-- an `int`, by its bits -/
  ttl : UInt32
  uid : UInt32
  gid : UInt32
  rootMode : ℕ
  /-- the descriptor that `fget` looks up -/
  sock : Option ℕ
  version : ℕ
  deriving DecidableEq, Repr

/-- The branches of `parse_options`. -/
inductive Clause : Type where
  | mnt
  | ro
  | rw
  | suid
  | nosuid
  | dev
  | nodev
  | exec
  | noexec
  | preserve
  | cachesize
  | cachemax
  | debug
  | ttl
  | uid
  | gid
  | rmode
  | fd
  | version
  deriving DecidableEq, Repr

namespace Clause

/-- The text that the front of the option is compared with. -/
def key : Clause → Bytes
  | mnt => ascii "mnt="
  | ro => ascii "ro"
  | rw => ascii "rw"
  | suid => ascii "suid"
  | nosuid => ascii "nosuid"
  | dev => ascii "dev"
  | nodev => ascii "nodev"
  | exec => ascii "exec"
  | noexec => ascii "noexec"
  | preserve => ascii "preserve"
  | cachesize => ascii "cachesize="
  | cachemax => ascii "cachemax="
  | debug => ascii "debug="
  | ttl => ascii "ttl="
  | uid => ascii "uid="
  | gid => ascii "gid="
  | rmode => ascii "rmode="
  | fd => ascii "fd="
  | version => ascii "version="

/-- The clauses in the order of the source. -/
def all : List Clause :=
  [mnt, ro, rw, suid, nosuid, dev, nodev, exec, noexec, preserve, cachesize, cachemax, debug, ttl,
    uid, gid, rmode, fd, version]

end Clause

/-- The clause of an option: the first one whose `strncmp` is 0. -/
def clauseOf (p : Bytes) : Option Clause := Clause.all.find? fun c => c.key.isPrefixOf p

/-- How a clause ends: with the next option, at `ugly_opts`, or not at all. -/
inductive Verdict : Type where
  | next
  | ugly
  | spin
  deriving DecidableEq, Repr

/-- What a clause makes of the text behind its key. -/
def Clause.verdict (c : Clause) (arg : Bytes) : Verdict :=
  match c with
  | mnt => if arg.length + 1 > SHFS_PATH_MAX then .ugly else .next
  | cachesize =>
    if arg.length > 5 then .ugly
    else if decVal arg = 0 then .spin -- `i` is -1, and stays so
    else .next
  | cachemax | debug | fd | version => if arg.length > 5 then .ugly else .next
  | ttl | uid | gid => if arg.length > 10 then .ugly else .next
  | rmode => if arg.length > 3 then .ugly else .next
  | _ => .next

/-- `parse_mode`, of the octets from here to the end of the page; a `char` has a sign. -/
def parseMode (mode : Bytes) : ℤ :=
  let d := fun i => (mode.getD i 0).toInt8.toInt - 48
  d 0 * 64 + d 1 * 8 + d 2

/-- What a clause does when it ends; `rest` is the option string behind the option, which
`parse_mode` may get to see. -/
def Clause.run (c : Clause) (arg rest : Bytes) (info : SbInfo) : SbInfo :=
  match c with
  | mnt => { info with mountPoint := arg }
  | ro => { info with readonly := true }
  | rw => { info with readonly := false }
  | suid => { info with fmask := info.fmask ||| 0xC00 }
  | nosuid => { info with fmask := info.fmask &&& ~~~0xC00 }
  | dev => { info with fmask := info.fmask ||| 0x6000 }
  | nodev => { info with fmask := info.fmask &&& ~~~0x6000 }
  | exec => { info with fmask := info.fmask ||| 0x49 }
  | noexec => { info with fmask := info.fmask &&& ~~~0x49 }
  | preserve => { info with preserveOwn := true }
  -- the number of pages, up to the next power of two
  | cachesize => { info with fcacheSize := 2 ^ (decVal arg - 1).size * 4096 }
  | cachemax => { info with fcacheFree := decVal arg }
  | debug => { info with debugLevel := decVal arg }
  | ttl => { info with ttl := .ofNat (decVal arg) * 1000 }
  | uid => { info with uid := .ofNat (decVal arg) }
  | gid => { info with gid := .ofNat (decVal arg) }
  -- `S_IFDIR`, and the bits for user, group and others
  | rmode => { info with rootMode := 0x4000 + (parseMode (arg ++ 0 :: rest) % 512).toNat }
  | fd => { info with sock := some (decVal arg) }
  | version => { info with version := decVal arg }

/-- What `parse_options` leaves: how it has ended, and the clauses that it has run. -/
structure Parsed : Type where
  verdict : Verdict
  info : SbInfo
  ran : List Clause
  deriving DecidableEq, Repr

/-- The loop of `parse_options`. -/
def parseLoop : List Bytes → SbInfo → Parsed
  | [], info => ⟨.next, info, []⟩
  | p :: ps, info =>
    match clauseOf p with
    | none => parseLoop ps info
    | some c =>
      let arg := p.drop c.key.length
      match c.verdict arg with
      | .next =>
        let r := parseLoop ps (c.run arg (joinWith comma ps) info)
        { r with ran := c :: r.ran }
      | v => ⟨v, info, []⟩

/-- `parse_options` -/
def parseOptions (opts : Bytes) (info : SbInfo) : Parsed := parseLoop (opts.splitOn comma) info

/-! ## The clauses of a string -/

/-- Does the parser go on behind this option? -/
def goesOn (p : Bytes) : Bool :=
  match clauseOf p with
  | none => true
  | some c => c.verdict (p.drop c.key.length) = .next

/-- The clauses that are for root only. -/
def Clause.Privileged (c : Clause) : Prop :=
  c ∈ [suid, dev, preserve, uid, gid]

instance (c : Clause) : Decidable c.Privileged := inferInstanceAs (Decidable (c ∈ _))

/-- Is the option one of root's? -/
def Privileged (p : Bytes) : Prop := ∃ c, clauseOf p = some c ∧ c.Privileged

instance (p : Bytes) : Decidable (Privileged p) :=
  match h : clauseOf p with
  | none => isFalse fun ⟨_, hc, _⟩ => nomatch h.symm.trans hc
  | some c =>
    if hc : c.Privileged then isTrue ⟨c, h, hc⟩
    else isFalse fun ⟨_, hc', hp⟩ => hc (Option.some.inj (h.symm.trans hc') ▸ hp)

section Loop

variable {ps : List Bytes} {p : Bytes}

theorem goesOn_eq (p : Bytes) : goesOn p =
    match clauseOf p with
    | none => true
    | some c => decide (c.verdict (p.drop c.key.length) = .next) := rfl

theorem goesOn_none (h : clauseOf p = none) : goesOn p = true := by
  rw [goesOn_eq, h]

theorem goesOn_next {c : Clause} (h : clauseOf p = some c)
    (hv : c.verdict (p.drop c.key.length) = .next) : goesOn p = true := by
  rw [goesOn_eq, h]
  exact decide_eq_true hv

theorem goesOn_stop {c : Clause} (h : clauseOf p = some c)
    (hv : c.verdict (p.drop c.key.length) ≠ .next) : ¬ goesOn p = true := by
  rw [goesOn_eq, h]
  exact mt of_decide_eq_true hv

theorem parseLoop_cons (p : Bytes) (ps : List Bytes) (info : SbInfo) : parseLoop (p :: ps) info =
    match clauseOf p with
    | none => parseLoop ps info
    | some c =>
      match c.verdict (p.drop c.key.length) with
      | .next =>
        let r := parseLoop ps (c.run (p.drop c.key.length) (joinWith comma ps) info)
        { r with ran := c :: r.ran }
      | v => ⟨v, info, []⟩ := rfl

/-- An option that is passed over. -/
theorem parseLoop_none (h : clauseOf p = none) (info : SbInfo) :
    parseLoop (p :: ps) info = parseLoop ps info := by
  rw [parseLoop_cons, h]

/-- An option that is taken. -/
theorem parseLoop_next {c : Clause} (h : clauseOf p = some c)
    (hv : c.verdict (p.drop c.key.length) = .next) (info : SbInfo) :
    parseLoop (p :: ps) info =
      { parseLoop ps (c.run (p.drop c.key.length) (joinWith comma ps) info) with
        ran := c :: (parseLoop ps (c.run (p.drop c.key.length) (joinWith comma ps) info)).ran
          } := by
  simp only [parseLoop_cons, h, hv]

/-- An option that stops the parser. -/
theorem parseLoop_stop {c : Clause} (h : clauseOf p = some c)
    (hv : c.verdict (p.drop c.key.length) ≠ .next) (info : SbInfo) :
    parseLoop (p :: ps) info = ⟨c.verdict (p.drop c.key.length), info, []⟩ := by
  simp only [parseLoop_cons, h]

/-- **The clauses that run** are those of the options in front of the first one that stops the
parser. -/
theorem ran_parseLoop (ps : List Bytes) (info : SbInfo) :
    (parseLoop ps info).ran = (ps.takeWhile goesOn).filterMap clauseOf := by
  induction ps generalizing info with
  | nil => rfl
  | cons p ps ih =>
    cases hc : clauseOf p with
    | none =>
      rw [parseLoop_none hc, List.takeWhile_cons_of_pos (goesOn_none hc),
        List.filterMap_cons_none hc, ih]
    | some c =>
      by_cases hv : c.verdict (p.drop c.key.length) = .next
      · rw [parseLoop_next hc hv, List.takeWhile_cons_of_pos (goesOn_next hc hv),
          List.filterMap_cons_some hc, ih]
      · rw [parseLoop_stop hc hv, List.takeWhile_cons_of_neg (goesOn_stop hc hv)]
        rfl

variable {β : Type} (f : SbInfo → β)

/-- What the clauses that run leave alone is left alone. -/
theorem parseLoop_keeps {info : SbInfo}
    (h : ∀ c ∈ (ps.takeWhile goesOn).filterMap clauseOf, ∀ arg rest info,
      f (c.run arg rest info) = f info) :
    f (parseLoop ps info).info = f info := by
  induction ps generalizing info with
  | nil => rfl
  | cons p ps ih =>
    cases hc : clauseOf p with
    | none =>
      rw [parseLoop_none hc]
      rw [List.takeWhile_cons_of_pos (goesOn_none hc), List.filterMap_cons_none hc] at h
      exact ih h
    | some c =>
      by_cases hv : c.verdict (p.drop c.key.length) = .next
      · rw [parseLoop_next hc hv]
        rw [List.takeWhile_cons_of_pos (goesOn_next hc hv), List.filterMap_cons_some hc] at h
        rw [ih fun c' hc' => h c' (List.mem_cons_of_mem _ hc')]
        exact h c (List.mem_cons_self ..) _ _ _
      · rw [parseLoop_stop hc hv]

/-- What one of the clauses that run sets, and no other one touches, comes from the last of its
arguments. -/
theorem parseLoop_sets {c₀ : Clause} (g : Bytes → β)
    (hset : ∀ arg rest info, f (c₀.run arg rest info) = g arg)
    (hkeep : ∀ c, c ≠ c₀ → ∀ arg rest info, f (c.run arg rest info) = f info)
    (h : c₀ ∈ (ps.takeWhile goesOn).filterMap clauseOf) :
    ∃ arg, ∀ info, f (parseLoop ps info).info = g arg := by
  induction ps with
  | nil => cases h
  | cons p ps ih =>
    cases hc : clauseOf p with
    | none =>
      rw [List.takeWhile_cons_of_pos (goesOn_none hc), List.filterMap_cons_none hc] at h
      obtain ⟨arg, harg⟩ := ih h
      exact ⟨arg, fun info => by rw [parseLoop_none hc, harg]⟩
    | some c =>
      by_cases hv : c.verdict (p.drop c.key.length) = .next
      · rw [List.takeWhile_cons_of_pos (goesOn_next hc hv), List.filterMap_cons_some hc] at h
        by_cases hlater : c₀ ∈ (ps.takeWhile goesOn).filterMap clauseOf
        · -- a later clause decides
          obtain ⟨arg, harg⟩ := ih hlater
          exact ⟨arg, fun info => by rw [parseLoop_next hc hv]; exact harg _⟩
        · -- this one is the last
          obtain rfl := (List.mem_cons.mp h).resolve_right hlater
          refine ⟨p.drop c₀.key.length, fun info => ?_⟩
          rw [parseLoop_next hc hv, ← hset _ (joinWith comma ps) info]
          exact parseLoop_keeps f fun c' hc' => hkeep c' fun heq => hlater (heq ▸ hc')
      · rw [List.takeWhile_cons_of_neg (goesOn_stop hc hv)] at h
        cases h

/-- What every clause keeps is kept by the parser. -/
theorem parseLoop_rule (P : SbInfo → Prop) (h : ∀ c : Clause, ∀ arg rest info, P info →
    P (c.run arg rest info)) {info : SbInfo} (hinfo : P info) : P (parseLoop ps info).info := by
  induction ps generalizing info with
  | nil => exact hinfo
  | cons p ps ih =>
    cases hc : clauseOf p with
    | none =>
      rw [parseLoop_none hc]
      exact ih hinfo
    | some c =>
      by_cases hv : c.verdict (p.drop c.key.length) = .next
      · rw [parseLoop_next hc hv]
        exact ih (h c _ _ _ hinfo)
      · rw [parseLoop_stop hc hv]
        exact hinfo

end Loop

/-! ## Options for everybody -/

/-- The option string gives the mount no right that only root has, whatever it starts from. -/
def Unprivileged (opts : Bytes) : Prop :=
  ∀ info, info.preserveOwn = false →
    let r := parseOptions opts info
    r.info.preserveOwn = false ∧ r.info.uid = info.uid ∧ r.info.gid = info.gid ∧
      Clause.suid ∉ r.ran ∧ Clause.dev ∉ r.ran

/-- The values before the first option. -/
def SbInfo.start (uid gid : UInt32) : SbInfo :=
  ⟨[], false, 0xFFFF, false, 32 * 4096, 10, 0, 20000, uid, gid, 0x41C0, none, 0⟩

/-- **An option string is unprivileged** when no option of root's stands in front of the first one
that stops the parser. -/
theorem unprivileged_iff (opts : Bytes) :
    Unprivileged opts ↔ ∀ p ∈ (opts.splitOn comma).takeWhile goesOn, ¬ Privileged p := by
  constructor
  · rintro h p hp ⟨c, hc, hpriv⟩
    have hmem := List.mem_filterMap.mpr ⟨p, hp, hc⟩
    have hrun : ∀ uid gid, _ := fun uid gid => h (.start uid gid) rfl
    simp only [parseOptions, ran_parseLoop] at hrun
    cases c with
    | suid => exact (hrun 0 0).2.2.2.1 hmem
    | dev => exact (hrun 0 0).2.2.2.2 hmem
    | preserve =>
      obtain ⟨arg, harg⟩ := parseLoop_sets SbInfo.preserveOwn (fun _ => true) (fun _ _ _ => rfl)
        (fun c hne _ _ _ => by cases c <;> first | rfl | exact absurd rfl hne) hmem
      exact absurd ((harg _).symm.trans (hrun 0 0).1) nofun
    | uid =>
      -- two mounts that start with different owners end with the same one
      obtain ⟨arg, harg⟩ := parseLoop_sets SbInfo.uid (fun arg => .ofNat (decVal arg))
        (fun _ _ _ => rfl)
          (fun c hne _ _ _ => by cases c <;> first | rfl | exact absurd rfl hne) hmem
      exact absurd ((hrun 0 0).2.1.symm.trans ((harg _).trans ((harg _).symm.trans (hrun 1 0).2.1)))
        (by decide)
    | gid =>
      obtain ⟨arg, harg⟩ := parseLoop_sets SbInfo.gid (fun arg => .ofNat (decVal arg))
        (fun _ _ _ => rfl)
          (fun c hne _ _ _ => by cases c <;> first | rfl | exact absurd rfl hne) hmem
      exact absurd ((hrun 0 0).2.2.1.symm.trans
        ((harg _).trans ((harg _).symm.trans (hrun 0 1).2.2.1))) (by decide)
    | _ => exact absurd hpriv (by decide)
  · intro h info hinfo
    have hnone : ∀ c ∈ ((opts.splitOn comma).takeWhile goesOn).filterMap clauseOf,
        ¬ c.Privileged := by
      intro c hc hpriv
      obtain ⟨p, hp, hclause⟩ := List.mem_filterMap.mp hc
      exact h p hp ⟨c, hclause, hpriv⟩
    simp only [parseOptions, ran_parseLoop]
    have hkept : ∀ c : Clause, ¬ c.Privileged → ∀ arg rest info,
        (c.run arg rest info).preserveOwn = info.preserveOwn ∧
          (c.run arg rest info).uid = info.uid ∧ (c.run arg rest info).gid = info.gid := by
      intro c hc arg rest info
      cases c with
      | suid | dev | preserve | uid | gid => exact absurd (by decide) hc
      | _ => exact ⟨rfl, rfl, rfl⟩
    refine ⟨(parseLoop_keeps SbInfo.preserveOwn fun c hc _ _ _ => (hkept c (hnone c hc) ..).1).trans
        hinfo,
      parseLoop_keeps SbInfo.uid fun c hc _ _ _ => (hkept c (hnone c hc) ..).2.1,
      parseLoop_keeps SbInfo.gid fun c hc _ _ _ => (hkept c (hnone c hc) ..).2.2,
      fun hs => hnone _ hs (by decide), fun hd => hnone _ hd (by decide)⟩

end Shfs
