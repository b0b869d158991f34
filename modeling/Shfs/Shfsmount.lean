import Shfs.Options

/-!
# `shfsmount` for users

`main` (shfsmount.c) up to `mount()`. The program is set-uid root, so it looks at every word of an
`-o` option before it uses it: some are for root only. What it does not use itself goes into the
option string for the kernel, with the mount point and the descriptor of the connection behind.

The words are compared as a whole with `preserve`, `suid` and `dev`, while the code that acts on
them, here and in `parse_options`, compares their front. `guarded_iff` says which requests of a user
keep the rights of root away from the mount.
-/

namespace Shfs

open Lib

/-- `BUFFER_MAX`, the size of `options` and of `buf`. -/
abbrev BUFFER_MAX : ℕ := 1024

/-- `PROTO_VERSION` -/
abbrev PROTO_VERSION : ℕ := 2

/-! ## Library functions -/

/-- `isspace` -/
def isSpace (b : Byte) : Bool := b = 32 || (9 ≤ b.toNat && b.toNat ≤ 13)

/-- `strtol(s, &e, 10)`: the number, and the text at `e`. -/
def strtol (s : Bytes) : ℤ × Bytes :=
  let t := s.dropWhile isSpace
  let (minus, u) :=
    match t with
    | 45 :: u => (true, u)
    | 43 :: u => (false, u)
    | u => (false, u)
  let n : ℤ := decVal u
  if (u.takeWhile isDigit).isEmpty then (0, s) -- no digits, nothing is taken
  else (max (-2 ^ 63) (min (if minus then -n else n) (2 ^ 63 - 1)), u.dropWhile isDigit)

/-- `snprintf(buf, sizeof(buf), …)`, of a text without the terminator. -/
def intoBuf (s : Bytes) : Bytes := s.take (BUFFER_MAX - 1)

/-- `strnconcat(str, sizeof(options), …)`: every piece is cut at `n` octets by itself. -/
def strnconcat (str : Bytes) (pieces : List Bytes) : Bytes :=
  pieces.foldl (fun str s => str ++ s.take BUFFER_MAX) str

/-! ## The program -/

/-- The system around the program: who runs it, its databases, and what its calls return. All of it
is arbitrary. -/
structure Sys : Type where
  /-- `getuid() == 0` -/
  root : Bool
  /-- `get_uid`: the user and the group, unless it exits -/
  getUid : Bytes → Option (UInt32 × UInt32)
  /-- `get_gid`, unless it exits -/
  getGid : Bytes → Option UInt32
  /-- `getpwuid(getuid())->pw_name` -/
  pwName : Option Bytes
  fullpath : Bytes → Option Bytes
  mountOk : Bytes → Bool
  /-- `create_socket`, after `daemonize` -/
  createSocket : Option ℕ

/-- What `getopt_long` returns, with `optarg`. -/
inductive Flag : Type where
  | cmdUser (arg : Bytes)
  | cmd (arg : Bytes)
  | port (arg : Bytes)
  | persistent
  | nomtab
  | type (arg : Bytes)
  /-- the long option has an argument, the short one has none -/
  | stable (arg : Option Bytes)
  | options (arg : Bytes)
  | verbose
  /-- `-O` and `-r` -/
  | compat
  /-- the options that print something and exit, and those that are not known -/
  | exit
  deriving DecidableEq, Repr

/-- The variables of the program. -/
structure Args : Type where
  cmdUid : UInt32
  cmdGid : UInt32
  haveUid : Bool
  cmdTemplate : Option Bytes
  port : Option Bytes
  persistent : Bool
  nomtab : Bool
  type : Option Bytes
  stable : Bool
  preserve : Bool
  verbose : ℕ
  options : Bytes

/-- Is the word one that the check refuses to a user? -/
def rootOnly (s : Bytes) : Bool :=
  s = ascii "preserve" || (ascii "cmd-user=").isPrefixOf s || (ascii "uid=").isPrefixOf s ||
    (ascii "gid=").isPrefixOf s || s = ascii "suid" || s = ascii "dev"

/-- Is the port a number that is not 0, with nothing behind? -/
def validPort (s : Bytes) : Bool := (strtol s).1 ≠ 0 && (strtol s).2.isEmpty

/-- The branches for a word. -/
inductive WordKind : Type where
  | cmdUser
  | cmd
  | port
  | persistent
  | preserve
  | type
  | stable
  | uid
  | gid
  | user
  | other
  deriving DecidableEq, Repr

/-- The branch of a word. -/
def wordKind (s : Bytes) : WordKind :=
  if (ascii "cmd-user=").isPrefixOf s then .cmdUser
  else if (ascii "cmd=").isPrefixOf s then .cmd
  else if (ascii "port=").isPrefixOf s then .port
  else if (ascii "persistent").isPrefixOf s then .persistent
  else if (ascii "preserve").isPrefixOf s then .preserve
  else if (ascii "type=").isPrefixOf s then .type
  else if (ascii "stable").isPrefixOf s then .stable
  else if (ascii "uid=").isPrefixOf s then .uid
  else if (ascii "gid=").isPrefixOf s then .gid
  else if s = ascii "user" then .user
  else .other

/-- A word of an `-o` option; `none` is an exit. -/
def word (sys : Sys) (a : Args) (s : Bytes) : Option Args :=
  if !sys.root && rootOnly s then none
  else
    match wordKind s with
    | .cmdUser =>
      if !sys.root then none
      else (sys.getUid (s.drop 9)).map fun u =>
        { a with cmdUid := u.1, cmdGid := u.2, haveUid := true }
    | .cmd => some { a with cmdTemplate := some (s.drop 4) }
    | .port => if !validPort (s.drop 5) then none else some { a with port := some (s.drop 5) }
    | .persistent => some { a with persistent := true }
    | .preserve =>
      some { a with preserve := true, options := strnconcat a.options [[comma], ascii "preserve"] }
    | .type => some { a with type := some (s.drop 5) }
    | .stable => some { a with stable := true }
    | .uid =>
      (sys.getUid (s.drop 4)).map fun u =>
        { a with options :=
          strnconcat a.options [[comma], intoBuf (ascii "uid=" ++ dec u.1.toNat)] }
    | .gid =>
      (sys.getGid (s.drop 4)).map fun g =>
        { a with options := strnconcat a.options [[comma], intoBuf (ascii "gid=" ++ dec g.toNat)] }
    | .user =>
      match sys.pwName with
      | some name =>
        some { a with options := strnconcat a.options [[comma], intoBuf (ascii "user=" ++ name)] }
      | none => some a
    | .other => some { a with options := strnconcat a.options [[comma], s] }

/-- The `while` loop over the words of an argument. -/
def wordLoop (sys : Sys) (a : Args) (arg : Bytes) : Option Args :=
  (arg.splitOn comma).foldlM (word sys) a

/-- A round of the loop over the options. -/
def flag (sys : Sys) (a : Args) : Flag → Option Args
  | .cmdUser arg =>
    if !sys.root then none
    else (sys.getUid arg).map fun u => { a with cmdUid := u.1, cmdGid := u.2, haveUid := true }
  | .cmd arg => some { a with cmdTemplate := some arg }
  | .port arg => if !validPort arg then none else some { a with port := some arg }
  | .persistent => some { a with persistent := true }
  | .nomtab => some { a with nomtab := true }
  | .type arg => some { a with type := some arg }
  | .stable arg =>
    -- there is no `break`, so that its argument is taken for one of `-o`
    match arg with
    | none => some { a with stable := true }
    | some arg => wordLoop sys { a with stable := true } arg
  | .options arg => wordLoop sys a arg
  | .verbose => some { a with verbose := a.verbose + 1 }
  | .compat => some a
  | .exit => none

/-- The variables at the start. -/
def Args.start : Args :=
  ⟨0, 0, false, none, none, false, false, none, false, false, 0,
    ascii "version=" ++ dec PROTO_VERSION⟩

/-- The host in `user@host:root`, if there is one. -/
def hostOf (arg : Bytes) : Option Bytes :=
  let host := if 64 ∈ arg then (arg.dropWhile (· ≠ 64)).drop 1 else arg
  if 58 ∈ host then some (host.takeWhile (· ≠ 58))
  else if host.head? = some 47 then none
  else some host

/-- The host and the mount point of the other arguments. -/
def operands : List Bytes → Option (Option Bytes × Bytes)
  | [] => none -- `usage`
  | [mnt] => some (none, mnt)
  | host :: mnt :: _ => some (hostOf host, mnt)

/-- What `mount()` is called with, and two of the variables then. -/
structure Mounted : Type where
  options : Bytes
  preserve : Bool
  haveUid : Bool

/-- `main`, up to `mount()`: what it hands to the kernel, and the two variables that decide what it
does with its rights. No result is an exit with a complaint. -/
def shfsmount (sys : Sys) (flags : List Flag) (args : List Bytes) : Option Mounted := do
  let a ← flags.foldlM (flag sys) .start
  let (host, path) ← operands args
  let mnt ← sys.fullpath path
  if !sys.mountOk mnt then none
  else
    let options := strnconcat a.options [ascii ",mnt=", mnt]
    let options :=
      if a.verbose ≠ 0 then strnconcat options [intoBuf (ascii ",debug=" ++ dec a.verbose)]
      else options
    if a.cmdTemplate.isNone && host.isNone then none -- Unknown remote host
    else
      let sock ← sys.createSocket
      let options := strnconcat options [intoBuf (ascii ",fd=" ++ dec sock)]
      some ⟨options, a.preserve, a.haveUid⟩

/-! ## What a request asks for -/

/-- The words the check looks at. -/
def Flag.words : Flag → List Bytes
  | .stable (some arg) | .options arg => arg.splitOn comma
  | _ => []

/-- What the kernel gets for a word. -/
def sent (sys : Sys) (s : Bytes) : Option Bytes :=
  match wordKind s with
  | .preserve => some (ascii "preserve")
  | .uid => (sys.getUid (s.drop 4)).map fun u => ascii "uid=" ++ dec u.1.toNat
  | .gid => (sys.getGid (s.drop 4)).map fun g => ascii "gid=" ++ dec g.toNat
  | .user => sys.pwName.map fun name => ascii "user=" ++ name
  | .other => some s
  | _ => none

/-- The words of a request, in their order. -/
def words (flags : List Flag) : List Bytes := flags.flatMap Flag.words

/-- The options for the kernel that the user has a say in: those behind `version=`, with the mount
point. -/
def userOptions (sys : Sys) (flags : List Flag) (mnt : Bytes) : List Bytes :=
  (words flags).filterMap (sent sys) ++ [ascii "mnt=" ++ mnt]

/-- The options for the kernel. -/
def kernelOptions (sys : Sys) (flags : List Flag) (mnt : Bytes) (sock : ℕ) : List Bytes :=
  (ascii "version=" ++ dec PROTO_VERSION) :: userOptions sys flags mnt ++
    ((if flags.count .verbose ≠ 0 then [ascii "debug=" ++ dec (flags.count .verbose)] else []) ++
      [ascii "fd=" ++ dec sock])

/-- **The requests that give no right away**: they fit in `options`, no word starts with `preserve`,
and none of the options between the commas is one of root's, in front of one that stops the
parser. -/
structure Harmless (sys : Sys) (flags : List Flag) (mnt : Bytes) (sock : ℕ) : Prop where
  room : (joinWith comma (kernelOptions sys flags mnt sock)).length < BUFFER_MAX
  preserve : ∀ w ∈ words flags, ¬ (ascii "preserve").isPrefixOf w
  options : ∀ p ∈ ((userOptions sys flags mnt).flatMap (·.splitOn comma)).takeWhile goesOn,
    ¬ Privileged p

/-- The mount has no right that only root has: the option string is inside its array, the kernel
takes none from it, and neither `preserve` nor `have_uid` is set. -/
structure Mounted.Guarded (m : Mounted) : Prop where
  room : m.options.length < BUFFER_MAX
  unprivileged : Unprivileged m.options
  preserve : m.preserve = false
  haveUid : m.haveUid = false

/-! ## The option string -/

/-- The array holds the text, or both are too long for it. -/
def Holds (str text : Bytes) : Prop :=
  str = text ∨ BUFFER_MAX ≤ str.length ∧ BUFFER_MAX ≤ text.length

theorem Holds.append {str text s t : Bytes} (h : Holds str text)
    (hst : s = t ∨ BUFFER_MAX ≤ str.length + s.length ∧ BUFFER_MAX ≤ text.length + t.length) :
    Holds (str ++ s) (text ++ t) := by
  unfold Holds at *
  rw [List.length_append, List.length_append]
  rcases h with rfl | ⟨hs, ht⟩
  · rcases hst with rfl | hlong
    · exact Or.inl rfl
    · exact Or.inr hlong
  · exact Or.inr ⟨by omega, by omega⟩

/-- A piece that `strnconcat` adds. -/
theorem Holds.piece {str text : Bytes} (h : Holds str text) (s : Bytes) :
    Holds (strnconcat str [s]) (text ++ s) := by
  apply h.append
  rcases Nat.lt_or_ge s.length BUFFER_MAX with hlt | hge
  · exact Or.inl (List.take_of_length_le hlt.le)
  · right
    rw [List.length_take]
    omega

/-- An option that `strnconcat` adds. -/
theorem Holds.option {str text : Bytes} (h : Holds str text) (s : Bytes) :
    Holds (strnconcat str [[comma], s]) (text ++ comma :: s) := by
  have := (h.piece [comma]).piece s
  rwa [List.append_assoc, List.singleton_append] at this

/-- A piece that has been in `buf`, behind others. -/
theorem Holds.pieceBuf {str text : Bytes} (h : Holds str text) (hne : text ≠ []) (s : Bytes) :
    Holds (strnconcat str [intoBuf s]) (text ++ s) := by
  have hlen : (intoBuf s).length ≤ BUFFER_MAX - 1 := List.length_take_le _ _
  have hfit : (intoBuf s).take BUFFER_MAX = intoBuf s := List.take_of_length_le (by omega)
  have hpos : 0 < str.length := by
    rcases h with rfl | ⟨hlong, -⟩
    · exact List.length_pos_iff.mpr hne
    · exact Nat.lt_of_lt_of_le (by decide) hlong
  simp only [strnconcat, List.foldl_cons, List.foldl_nil, hfit]
  apply h.append
  rcases Nat.lt_or_ge s.length BUFFER_MAX with hlt | hge
  · left
    rw [intoBuf, List.take_of_length_le (by omega)]
  · right
    rw [intoBuf, List.length_take]
    omega

/-- An option that has been in `buf`. -/
theorem Holds.optionBuf {str text : Bytes} (h : Holds str text) (s : Bytes) :
    Holds (strnconcat str [[comma], intoBuf s]) (text ++ comma :: s) := by
  have hne : text ++ [comma] ≠ [] := List.append_ne_nil_of_right_ne_nil _ (List.cons_ne_nil _ _)
  have := (h.piece [comma]).pieceBuf hne s
  rwa [List.append_assoc, List.singleton_append] at this

/-- The options, each behind a comma. -/
def behind (options : List Bytes) : Bytes := options.flatMap (comma :: ·)

theorem behind_append (xs ys : List Bytes) : behind (xs ++ ys) = behind xs ++ behind ys :=
  List.flatMap_append

theorem joinWith_behind (x : Bytes) (xs : List Bytes) :
    joinWith comma (x :: xs) = x ++ behind xs :=
  joinWith_flatMap comma x xs

theorem splitOn_behind (x : Bytes) (xs : List Bytes) :
    (x ++ behind xs).splitOn comma = (x :: xs).flatMap (·.splitOn comma) := by
  induction xs generalizing x with
  | nil => rw [behind, List.flatMap_nil, List.append_nil, List.flatMap_singleton]
  | cons y ys ih =>
    rw [behind, List.flatMap_cons, List.cons_append, List.splitOn_append_cons_self]
    rw [List.flatMap_cons]
    congr 1
    exact ih y

/-! ## What the loops leave -/

/-- What the words `ws` and `n` flags `-v` of a user change. -/
structure Adds (sys : Sys) (ws : List Bytes) (n : ℕ) (a a' : Args) : Prop where
  haveUid : a'.haveUid = a.haveUid
  preserve : a'.preserve = (a.preserve || ws.any (ascii "preserve").isPrefixOf)
  verbose : a'.verbose = a.verbose + n
  options : ∀ text, Holds a.options text →
    Holds a'.options (text ++ behind (ws.filterMap (sent sys)))

section Loops

variable {sys : Sys} {a a' : Args}

theorem Adds.refl (sys : Sys) (a : Args) : Adds sys [] 0 a a := by
  refine ⟨rfl, (Bool.or_false _).symm, rfl, fun text h => ?_⟩
  rwa [List.filterMap_nil, behind, List.flatMap_nil, List.append_nil]

theorem Adds.trans {vs ws : List Bytes} {m n : ℕ} {b : Args} (h : Adds sys vs m a b)
    (h' : Adds sys ws n b a') : Adds sys (vs ++ ws) (m + n) a a' := by
  refine ⟨h'.haveUid.trans h.haveUid, ?_, ?_, fun text ht => ?_⟩
  · rw [h'.preserve, h.preserve, List.any_append, Bool.or_assoc]
  · rw [h'.verbose, h.verbose, Nat.add_assoc]
  · rw [List.filterMap_append, behind_append, ← List.append_assoc]
    exact h'.options _ (h.options _ ht)

/-- Two texts that differ do not both start a word. -/
theorem isPrefixOf_other {p q w : Bytes} (h : p.isPrefixOf w = true) (hpq : ¬ p <+: q)
    (hqp : ¬ q <+: p) : q.isPrefixOf w = false := by
  by_contra hn
  have hq : q.isPrefixOf w = true := Bool.not_eq_false _ ▸ hn
  rcases List.prefix_or_prefix_of_prefix (List.isPrefixOf_iff_prefix.mp h)
    (List.isPrefixOf_iff_prefix.mp hq) with h' | h'
  · exact hpq h'
  · exact hqp h'

/-- The words that start with `preserve` all go to its branch. -/
theorem isPrefixOf_preserve (w : Bytes) :
    (ascii "preserve").isPrefixOf w = decide (wordKind w = .preserve) := by
  cases h : (ascii "preserve").isPrefixOf w with
  | true =>
    have hother : ∀ p, ¬ ascii "preserve" <+: p → ¬ p <+: ascii "preserve" →
        p.isPrefixOf w = false :=
      fun p hp hp' => isPrefixOf_other h hp hp'
    have hkind : wordKind w = .preserve := by
      unfold wordKind
      rw [hother (ascii "cmd-user=") (by decide) (by decide),
        hother (ascii "cmd=") (by decide) (by decide),
          hother (ascii "port=") (by decide) (by decide),
        hother (ascii "persistent") (by decide) (by decide), h]
      rfl
    rw [hkind]
    rfl
  | false =>
    have hkind : wordKind w ≠ .preserve := by
      unfold wordKind
      simp only [h, Bool.false_eq_true, if_false]
      repeat' split
      all_goals decide
    exact (decide_eq_false hkind).symm

/-- A word that the program uses itself. -/
theorem Adds.used {w : Bytes} (hkind : wordKind w ≠ .preserve) (hsent : sent sys w = none)
    (haveUid : a'.haveUid = a.haveUid) (hold : a'.preserve = a.preserve)
    (verbose : a'.verbose = a.verbose) (options : a'.options = a.options) :
    Adds sys [w] 0 a a' := by
  refine ⟨haveUid, ?_, verbose, fun text h => ?_⟩
  · rw [hold, List.any_cons, isPrefixOf_preserve, decide_eq_false hkind, List.any_nil,
      Bool.or_false, Bool.or_false]
  · rw [List.filterMap_cons_none hsent, List.filterMap_nil, behind, List.flatMap_nil,
      List.append_nil, options]
    exact h

/-- A word that the kernel gets as an option. -/
theorem Adds.passed {w s : Bytes} (hsent : sent sys w = some s)
    (haveUid : a'.haveUid = a.haveUid)
    (hold : a'.preserve = (a.preserve || decide (wordKind w = .preserve)))
    (verbose : a'.verbose = a.verbose)
    (options : ∀ text, Holds a.options text → Holds a'.options (text ++ comma :: s)) :
    Adds sys [w] 0 a a' := by
  refine ⟨haveUid, ?_, verbose, fun text h => ?_⟩
  · rw [hold, List.any_cons, List.any_nil, Bool.or_false, isPrefixOf_preserve]
  · rw [List.filterMap_cons_some hsent, List.filterMap_nil, behind, List.flatMap_singleton]
    exact options text h

/-- A word is used, or it is passed on. -/
theorem word_adds (hroot : sys.root = false) {w : Bytes} (h : word sys a w = some a') :
    Adds sys [w] 0 a a' := by
  unfold word at h
  rw [hroot] at h
  split at h
  · cases h
  · cases hkind : wordKind w <;> rw [hkind] at h
    case cmdUser => cases h
    case cmd | persistent | type | stable =>
      obtain rfl := Option.some.inj h
      exact Adds.used (by rw [hkind]; decide) (by rw [sent, hkind]) rfl rfl rfl rfl
    case port =>
      dsimp only at h
      split at h
      · cases h
      · obtain rfl := Option.some.inj h
        exact Adds.used (by rw [hkind]; decide) (by rw [sent, hkind]) rfl rfl rfl rfl
    case preserve =>
      obtain rfl := Option.some.inj h
      exact Adds.passed (by rw [sent, hkind]) rfl (by rw [hkind]; simp) rfl
        fun text ht => ht.option _
    case uid =>
      obtain ⟨u, hu, rfl⟩ := Option.map_eq_some_iff.mp h
      exact Adds.passed (by rw [sent, hkind]; dsimp only; rw [hu]; rfl) rfl (by rw [hkind]; simp)
        rfl fun text ht => ht.optionBuf _
    case gid =>
      obtain ⟨g, hg, rfl⟩ := Option.map_eq_some_iff.mp h
      exact Adds.passed (by rw [sent, hkind]; dsimp only; rw [hg]; rfl) rfl (by rw [hkind]; simp)
        rfl fun text ht => ht.optionBuf _
    case user =>
      cases hname : sys.pwName with
      | none =>
        rw [hname] at h
        obtain rfl := Option.some.inj h
        exact Adds.used (by rw [hkind]; decide) (by rw [sent, hkind]; dsimp only; rw [hname]; rfl)
          rfl rfl rfl rfl
      | some name =>
        rw [hname] at h
        obtain rfl := Option.some.inj h
        exact Adds.passed (by rw [sent, hkind]; dsimp only; rw [hname]; rfl) rfl
          (by rw [hkind]; simp) rfl fun text ht => ht.optionBuf _
    case other =>
      obtain rfl := Option.some.inj h
      exact Adds.passed (by rw [sent, hkind]) rfl (by rw [hkind]; simp) rfl
        fun text ht => ht.option _

/-- The words of an argument. -/
theorem words_adds (hroot : sys.root = false) {ws : List Bytes}
    (h : ws.foldlM (word sys) a = some a') : Adds sys ws 0 a a' := by
  induction ws generalizing a with
  | nil =>
    obtain rfl := Option.some.inj h
    exact Adds.refl sys a
  | cons w ws ih =>
    rw [List.foldlM_cons] at h
    obtain ⟨b, hb, h⟩ := Option.bind_eq_some_iff.mp h
    exact (word_adds hroot hb).trans (ih h)

/-- The flags of a user. -/
theorem flag_adds (hroot : sys.root = false) {f : Flag} (h : flag sys a f = some a') :
    Adds sys f.words (if f = .verbose then 1 else 0) a a' := by
  have hloop : ∀ {a : Args} {arg : Bytes}, wordLoop sys a arg = some a' →
      Adds sys (arg.splitOn comma) 0 a a' := fun h => words_adds hroot h
  cases f with
  | cmdUser arg =>
    rw [flag, hroot] at h
    cases h
  | port arg =>
    rw [flag] at h
    split at h
    · cases h
    · obtain rfl := Option.some.inj h
      obtain ⟨hu, hp, hv, ho⟩ := Adds.refl sys a
      exact ⟨hu, hp, hv, ho⟩
  | stable arg =>
    cases arg with
    | none =>
      obtain rfl := Option.some.inj h
      obtain ⟨hu, hp, hv, ho⟩ := Adds.refl sys a
      exact ⟨hu, hp, hv, ho⟩
    | some arg =>
      obtain ⟨hu, hp, hv, ho⟩ := hloop h
      exact ⟨hu, hp, hv, ho⟩
  | options arg => exact hloop h
  | exit => cases h
  | cmd arg | persistent | nomtab | type arg | compat =>
    obtain rfl := Option.some.inj h
    obtain ⟨hu, hp, hv, ho⟩ := Adds.refl sys a
    exact ⟨hu, hp, hv, ho⟩
  | verbose =>
    obtain rfl := Option.some.inj h
    obtain ⟨hu, hp, -, ho⟩ := Adds.refl sys a
    exact ⟨hu, hp, rfl, ho⟩

/-- The options that count, one after the other. -/
theorem count_verbose_cons (f : Flag) (flags : List Flag) :
    (f :: flags).count .verbose = (if f = .verbose then 1 else 0) + flags.count .verbose := by
  rw [List.count_cons, Nat.add_comm]
  simp only [beq_iff_eq]

/-- The loop over the options. -/
theorem flags_adds (hroot : sys.root = false) {flags : List Flag}
    (h : flags.foldlM (flag sys) a = some a') :
    Adds sys (words flags) (flags.count .verbose) a a' := by
  induction flags generalizing a with
  | nil =>
    obtain rfl := Option.some.inj h
    exact Adds.refl sys a
  | cons f flags ih =>
    rw [List.foldlM_cons] at h
    obtain ⟨b, hb, h⟩ := Option.bind_eq_some_iff.mp h
    rw [count_verbose_cons, words, List.flatMap_cons]
    exact (flag_adds hroot hb).trans (ih h)

end Loops

/-! ## The privileges of a mount -/

section Guarded

variable {sys : Sys} {flags : List Flag} {args : List Bytes} {host : Option Bytes}
  {path mnt : Bytes} {sock : ℕ} {m : Mounted}

/-- What is in the array for the kernel, and the variables of a user's request. -/
theorem shfsmount_spec (hroot : sys.root = false) (h : shfsmount sys flags args = some m)
    (hargs : operands args = some (host, path)) (hmnt : sys.fullpath path = some mnt)
    (hsock : sys.createSocket = some sock) :
    Holds m.options (joinWith comma (kernelOptions sys flags mnt sock)) ∧
      m.preserve = (words flags).any (ascii "preserve").isPrefixOf ∧ m.haveUid = false := by
  unfold shfsmount at h
  obtain ⟨a, ha, h⟩ := Option.bind_eq_some_iff.mp h
  simp only [hargs, hmnt, hsock, Option.bind_eq_bind, Option.bind_some] at h
  obtain ⟨hhave, hpreserve, hverbose, hoptions⟩ := flags_adds hroot ha
  split at h
  · cases h
  · split at h
    · cases h
    · obtain rfl := Option.some.inj h
      refine ⟨?_, ?_, hhave⟩
      · have hbase := hoptions _ (Or.inl rfl)
        have hpath := (hbase.piece (ascii ",mnt=")).piece mnt
        have hne : ∀ s : Bytes, Args.start.options ++ s ≠ [] := fun s =>
          List.append_ne_nil_of_left_ne_nil (by decide) s
        have hcount : a.verbose = flags.count .verbose := hverbose.trans (Nat.zero_add _)
        simp only [List.append_assoc] at hpath
        rw [kernelOptions, List.cons_append, joinWith_behind, userOptions, ← hcount]
        split
        · -- with `debug=`
          have := (hpath.pieceBuf (hne _) (ascii ",debug=" ++ dec a.verbose)).pieceBuf
            (List.append_ne_nil_of_left_ne_nil (hne _) _) (ascii ",fd=" ++ dec sock)
          simpa [behind, Args.start, ascii, comma, strnconcat] using this
        · have := hpath.pieceBuf (hne _) (ascii ",fd=" ++ dec sock)
          simpa [behind, Args.start, ascii, comma, strnconcat] using this
      · rw [hpreserve]
        rfl

theorem not_privileged {p : Bytes} {c : Clause} (h : clauseOf p = some c) (hc : ¬ c.Privileged) :
    ¬ Privileged p := by
  rintro ⟨c', hc', hpriv⟩
  obtain rfl := Option.some.inj (h.symm.trans hc')
  exact hc hpriv

theorem comma_notMem {s : Bytes} (hs : comma ∉ s) (n : ℕ) : comma ∉ s ++ dec n := by
  intro h
  rcases List.mem_append.mp h with h | h
  · exact hs h
  · exact ne_of_isDigit (isDigit_of_mem_dec h) (by decide) rfl

/-- The options that the user has no say in are nobody's secret. -/
theorem privileged_iff_userOptions (sys : Sys) (flags : List Flag) (mnt : Bytes) (sock : ℕ) :
    (∀ p ∈ ((joinWith comma (kernelOptions sys flags mnt sock)).splitOn comma).takeWhile goesOn,
        ¬ Privileged p) ↔
      ∀ p ∈ ((userOptions sys flags mnt).flatMap (·.splitOn comma)).takeWhile goesOn,
        ¬ Privileged p := by
  set version := ascii "version=" ++ dec PROTO_VERSION with hversion
  set tail := (if flags.count .verbose ≠ 0 then [ascii "debug=" ++ dec (flags.count .verbose)]
    else []) ++ [ascii "fd=" ++ dec sock] with htail
  have hsplit : (joinWith comma (kernelOptions sys flags mnt sock)).splitOn comma =
      version :: ((userOptions sys flags mnt).flatMap (·.splitOn comma) ++
        tail.flatMap (·.splitOn comma)) := by
    rw [kernelOptions, List.cons_append, joinWith_behind, splitOn_behind, List.flatMap_cons,
      List.flatMap_append, List.splitOn_eq_singleton (comma_notMem (by decide) _)]
    rfl
  -- what stands behind the user's options is never root's
  have hlast : ∀ p ∈ tail.flatMap (·.splitOn comma), ¬ Privileged p := by
    intro p hp
    obtain ⟨q, hq, hpq⟩ := List.mem_flatMap.mp hp
    have hq' : (∃ n, q = ascii "debug=" ++ dec n) ∨ q = ascii "fd=" ++ dec sock := by
      rw [htail] at hq
      rcases List.mem_append.mp hq with hq | hq
      · split at hq
        · exact Or.inl ⟨_, List.mem_singleton.mp hq⟩
        · cases hq
      · exact Or.inr (List.mem_singleton.mp hq)
    rcases hq' with ⟨n, rfl⟩ | rfl
    · rw [List.splitOn_eq_singleton (comma_notMem (by decide) _)] at hpq
      obtain rfl := List.mem_singleton.mp hpq
      exact not_privileged (c := .debug) rfl (by decide)
    · rw [List.splitOn_eq_singleton (comma_notMem (by decide) _)] at hpq
      obtain rfl := List.mem_singleton.mp hpq
      exact not_privileged (c := .fd) rfl (by decide)
  rw [hsplit, List.takeWhile_cons_of_pos (by rw [hversion]; decide)]
  constructor
  · intro h p hp
    refine h p (List.mem_cons_of_mem _ ?_)
    rw [List.takeWhile_append]
    split
    · exact List.mem_append_left _ (List.takeWhile_subset _ hp)
    · exact hp
  · intro h p hp
    rcases List.mem_cons.mp hp with rfl | hp
    · exact not_privileged (c := .version) rfl (by decide)
    · rw [List.takeWhile_append] at hp
      split at hp
      · next hall =>
        rcases List.mem_append.mp hp with hp | hp
        · exact h p (((List.takeWhile_prefix _).eq_of_length hall).symm ▸ hp)
        · exact hlast p (List.takeWhile_subset _ hp)
      · exact h p hp

/-- **A request of a user gives no right away** exactly when it is harmless. Given away are the
options of root in the string that the kernel gets, and the two variables of `shfsmount` itself; the
check compares whole words with `preserve`, and the branch behind it takes a prefix. -/
theorem guarded_iff (hroot : sys.root = false) (h : shfsmount sys flags args = some m)
    (hargs : operands args = some (host, path)) (hmnt : sys.fullpath path = some mnt)
    (hsock : sys.createSocket = some sock) :
    m.Guarded ↔ Harmless sys flags mnt sock := by
  obtain ⟨hholds, hpreserve, hhave⟩ := shfsmount_spec hroot h hargs hmnt hsock
  have hwords : m.preserve = false ↔ ∀ w ∈ words flags, ¬ (ascii "preserve").isPrefixOf w := by
    rw [hpreserve, List.any_eq_false]
  rcases hholds with heq | ⟨hlong, hlong'⟩
  · have hoptions := privileged_iff_userOptions sys flags mnt sock
    rw [← heq, ← unprivileged_iff] at hoptions
    constructor
    · rintro ⟨hroom, hunpriv, hpres, -⟩
      exact ⟨heq ▸ hroom, hwords.mp hpres, hoptions.mp hunpriv⟩
    · rintro ⟨hroom, hpres, hopts⟩
      exact ⟨heq ▸ hroom, hoptions.mpr hopts, hwords.mpr hpres, hhave⟩
  · -- too long for the array
    constructor
    · exact fun hg => absurd hg.room (Nat.not_lt.mpr hlong)
    · exact fun hh => absurd hh.room (Nat.not_lt.mpr hlong')

end Guarded

/-! ## Two requests -/

/-- A user's system: the mount point is where it seems to be, and there is a connection. -/
def userSys : Sys :=
  ⟨false, fun _ => some (1000, 1000), fun _ => some 1000, some (ascii "joe"), some, fun _ => true,
    some 3⟩

/-- A request that keeps to what users may do. -/
theorem guarded_ro :
    ∃ m, shfsmount userSys [.options (ascii "ro,cachesize=8,user"), .verbose]
      [ascii "host", ascii "/mnt"] = some m ∧ m.Guarded := by
  have hharmless : Harmless userSys [.options (ascii "ro,cachesize=8,user"), .verbose]
      (ascii "/mnt") 3 :=
    ⟨by decide +kernel, by decide +kernel, by decide +kernel⟩
  obtain ⟨m, hm⟩ : ∃ m, shfsmount userSys [.options (ascii "ro,cachesize=8,user"), .verbose]
      [ascii "host", ascii "/mnt"] = some m := ⟨_, rfl⟩
  exact ⟨m, hm, (guarded_iff rfl hm rfl rfl rfl).mpr hharmless⟩

/-- **A word that only starts with `preserve`** is not refused, and acts as `preserve` does. -/
theorem not_guarded_preserves :
    ¬ ∀ (sys : Sys) (flags : List Flag) (args : List Bytes) (m : Mounted), sys.root = false →
      shfsmount sys flags args = some m → m.Guarded := by
  intro h
  have hm := h userSys [.options (ascii "preserves")] [ascii "host", ascii "/mnt"] _ rfl rfl
  exact absurd hm.preserve (by decide)

end Shfs
