import Mathlib.Data.List.Infix
import Shfs.Template

/-!
# The arrays of `shfsmount`

`options` and `cmd` have `BUFFER_MAX` octets. `main` fills them with `strnconcat`, which passes the
size of the array to `strncat` for each of its pieces, and `strncat` takes it for the room that is
left: what is in the array already does not count.

`optionsContents` and `cmdContents` are what `main` has in the arrays, one after the other, up to an
exit or to the end. `arrays_iff` says which command lines stay inside.
-/

namespace Shfs

open Lib

/-! ## What is in the arrays -/

/-- The variables in front of each of the words, and behind the last one. -/
def wordStages (sys : Sys) (a : Args) : List Bytes → List Args
  | [] => [a]
  | w :: ws =>
    a :: match word sys a w with
      | some a => wordStages sys a ws
      | none => []

/-- The variables in a round of the loop over the options. -/
def flagStages (sys : Sys) (a : Args) : Flag → List Args
  | .stable (some arg) => wordStages sys { a with stable := true } (arg.splitOn comma)
  | .options arg => wordStages sys a (arg.splitOn comma)
  | _ => [a]

/-- The variables in the loop over the options, up to an exit. -/
def argsStages (sys : Sys) (a : Args) : List Flag → List Args
  | [] => [a]
  | f :: fs =>
    flagStages sys a f ++
      match flag sys a f with
      | some a => argsStages sys a fs
      | none => []

/-- The host and the mount point, unless `main` exits. -/
def mountPoint (sys : Sys) (args : List Bytes) : Option (Option Bytes × Bytes) := do
  let (host, path) ← operands args
  let mnt ← sys.fullpath path
  if sys.mountOk mnt then some (host, mnt) else none

/-- The user in `user@host:root`, if there is one. -/
def userOf : List Bytes → Option Bytes
  | arg :: _ :: _ => if 64 ∈ arg then some (arg.takeWhile (· ≠ 64)) else none
  | _ => none

/-- `options` from `,mnt=` on. -/
def behindMount (sys : Sys) (a : Args) (host : Option Bytes) (mnt : Bytes) : List Bytes :=
  let options := strnconcat a.options [ascii ",mnt=", mnt]
  let options' :=
    if a.verbose ≠ 0 then strnconcat options [intoBuf (ascii ",debug=" ++ dec a.verbose)]
    else options
  options :: options' ::
    if a.cmdTemplate.isNone && host.isNone then [] -- Unknown remote host
    else
      match sys.createSocket with
      | some sock => [strnconcat options' [intoBuf (ascii ",fd=" ++ dec sock)]]
      | none => []

/-- What is in `options`. -/
def optionsContents (sys : Sys) (flags : List Flag) (args : List Bytes) : List Bytes :=
  (argsStages sys .start flags).map (·.options) ++
    match flags.foldlM (flag sys) .start, mountPoint sys args with
    | some a, some (host, mnt) => behindMount sys a host mnt
    | _, _ => []

/-- `"exec ssh %s%s %s%s %s %s"` -/
def sshCommand (v : Placeholders) (host : Bytes) : Bytes :=
  ascii "exec ssh " ++ (v.port.map (ascii "-p " ++ ·)).getD [] ++ [sp] ++
    (v.user.map (ascii "-l " ++ ·)).getD [] ++ [sp] ++ host ++ ascii " /bin/sh"

/-- What is in `cmd`: with a template, what is there behind each call of `strnconcat`. -/
def cmdContents (sys : Sys) (flags : List Flag) (args : List Bytes) : List Bytes :=
  match flags.foldlM (flag sys) .start, mountPoint sys args with
  | some a, some (host, _) =>
    let v : Placeholders := ⟨userOf args, host, a.port⟩
    match a.cmdTemplate, host with
    | some t, _ => (templateCalls v t).inits.map (strnconcat [])
    | none, some host => [intoBuf (sshCommand v host)]
    | none, none => []
  | _, _ => []

/-! ## What the command line asks for -/

/-- Does the program go on behind the word? -/
def accepts (sys : Sys) (s : Bytes) : Bool :=
  (sys.root || !rootOnly s) &&
    match wordKind s with
    | .cmdUser => sys.root && (sys.getUid (s.drop 9)).isSome
    | .port => validPort (s.drop 5)
    | .uid => (sys.getUid (s.drop 4)).isSome
    | .gid => (sys.getGid (s.drop 4)).isSome
    | _ => true

/-- Does it go on behind the flag? -/
def Flag.accepted (sys : Sys) (f : Flag) : Bool :=
  f.words.all (accepts sys) &&
    match f with
    | .cmdUser arg => sys.root && (sys.getUid arg).isSome
    | .port arg => validPort arg
    | .exit => false
    | _ => true

/-- The words up to the one at which the program exits. -/
def heard (sys : Sys) : List Flag → List Bytes
  | [] => []
  | f :: fs =>
    f.words.takeWhile (accepts sys) ++ if f.accepted sys then heard sys fs else []

/-- The templates in the words. -/
def wordTemplates (ws : List Bytes) : List Bytes := (ws.filter (wordKind · = .cmd)).map (·.drop 4)

/-- The ports in the words. -/
def wordPorts (ws : List Bytes) : List Bytes := (ws.filter (wordKind · = .port)).map (·.drop 5)

/-- The templates of a flag. -/
def Flag.templates : Flag → List Bytes
  | .cmd arg => [arg]
  | f => wordTemplates f.words

/-- The ports of a flag. -/
def Flag.ports : Flag → List Bytes
  | .port arg => [arg]
  | f => wordPorts f.words

/-- The template, which is the last one. -/
def templateOf (flags : List Flag) : Option Bytes := (flags.flatMap Flag.templates).getLast?

/-- The port, which is the last one. -/
def portOf (flags : List Flag) : Option Bytes := (flags.flatMap Flag.ports).getLast?

/-- The host and the mount point, if all of the command line is in order. -/
def acceptedMount (sys : Sys) (flags : List Flag) (args : List Bytes) :
    Option (Option Bytes × Bytes) :=
  if flags.all (·.accepted sys) then mountPoint sys args else none

/-- The options for the kernel, as far as the program comes. -/
def optionTexts (sys : Sys) (flags : List Flag) (args : List Bytes) : List Bytes :=
  (ascii "version=" ++ dec PROTO_VERSION) :: (heard sys flags).filterMap (sent sys) ++
    match acceptedMount sys flags args with
    | none => []
    | some (host, mnt) =>
      (ascii "mnt=" ++ mnt) ::
        (if flags.count .verbose ≠ 0 then [ascii "debug=" ++ dec (flags.count .verbose)] else []) ++
        if (templateOf flags).isNone && host.isNone then []
        else (sys.createSocket.map fun sock => ascii "fd=" ++ dec sock).toList

/-- **The command lines that fit**: the options for the kernel, and what the template expands to. -/
structure FitsArrays (sys : Sys) (flags : List Flag) (args : List Bytes) : Prop where
  options : (joinWith comma (optionTexts sys flags args)).length < BUFFER_MAX
  cmd : ∀ host mnt t, acceptedMount sys flags args = some (host, mnt) → templateOf flags = some t →
    (expand ⟨userOf args, host, portOf flags⟩ t).length < BUFFER_MAX

/-! ## What the loops take -/

/-- The options for the kernel, the flags `-v`, the templates and the ports that a part of the
command line has brought. -/
structure Takes (texts : List Bytes) (n : ℕ) (ts ps : List Bytes) (a a' : Args) : Prop where
  options : ∀ text, Holds a.options text → Holds a'.options (text ++ behind texts)
  verbose : a'.verbose = a.verbose + n
  cmdTemplate : a'.cmdTemplate = ts.getLast?.or a.cmdTemplate
  port : a'.port = ps.getLast?.or a.port

section Loops

variable {sys : Sys} {a a' : Args} {texts : List Bytes} {n : ℕ} {ts ps : List Bytes}

theorem Takes.refl (a : Args) : Takes [] 0 [] [] a a := by
  refine ⟨fun text h => ?_, rfl, rfl, rfl⟩
  rwa [behind, List.flatMap_nil, List.append_nil]

theorem Takes.trans {texts' : List Bytes} {n' : ℕ} {ts' ps' : List Bytes} {b : Args}
    (h : Takes texts n ts ps a b) (h' : Takes texts' n' ts' ps' b a') :
    Takes (texts ++ texts') (n + n') (ts ++ ts') (ps ++ ps') a a' := by
  refine ⟨fun text ht => ?_, ?_, ?_, ?_⟩
  · rw [behind_append, ← List.append_assoc]
    exact h'.options _ (h.options _ ht)
  · rw [h'.verbose, h.verbose, Nat.add_assoc]
  · rw [h'.cmdTemplate, h.cmdTemplate, List.getLast?_append, Option.or_assoc]
  · rw [h'.port, h.port, List.getLast?_append, Option.or_assoc]

/-- A word that goes to the kernel. -/
theorem Takes.passed {w s : Bytes} (hsent : sent sys w = some s)
    (options : ∀ text, Holds a.options text → Holds a'.options (text ++ comma :: s))
    (verbose : a'.verbose = a.verbose) (cmdTemplate : a'.cmdTemplate = a.cmdTemplate)
    (port : a'.port = a.port) : Takes (sent sys w).toList 0 [] [] a a' := by
  refine ⟨fun text h => ?_, verbose, cmdTemplate, port⟩
  rw [hsent, Option.toList_some, behind, List.flatMap_singleton]
  exact options text h

/-- A word that changes nothing of these. -/
theorem Takes.used {w : Bytes} (hsent : sent sys w = none) (options : a'.options = a.options)
    (verbose : a'.verbose = a.verbose) (cmdTemplate : a'.cmdTemplate = ts.getLast?.or a.cmdTemplate)
    (port : a'.port = ps.getLast?.or a.port) : Takes (sent sys w).toList 0 ts ps a a' := by
  refine ⟨fun text h => ?_, verbose, cmdTemplate, port⟩
  rw [hsent, Option.toList_none, behind, List.flatMap_nil, List.append_nil, options]
  exact h

theorem wordTemplates_append (ws ws' : List Bytes) :
    wordTemplates (ws ++ ws') = wordTemplates ws ++ wordTemplates ws' := by
  rw [wordTemplates, List.filter_append, List.map_append]
  rfl

theorem wordPorts_append (ws ws' : List Bytes) :
    wordPorts (ws ++ ws') = wordPorts ws ++ wordPorts ws' := by
  rw [wordPorts, List.filter_append, List.map_append]
  rfl

theorem wordTemplates_singleton (w : Bytes) :
    wordTemplates [w] = if wordKind w = .cmd then [w.drop 4] else [] := by
  rw [wordTemplates, List.filter_singleton]
  by_cases h : wordKind w = .cmd <;> simp [h]

theorem wordPorts_singleton (w : Bytes) :
    wordPorts [w] = if wordKind w = .port then [w.drop 5] else [] := by
  rw [wordPorts, List.filter_singleton]
  by_cases h : wordKind w = .port <;> simp [h]

/-- What a word brings. -/
theorem word_takes {w : Bytes} (h : word sys a w = some a') :
    Takes (sent sys w).toList 0 (wordTemplates [w]) (wordPorts [w]) a a' := by
  rw [wordTemplates_singleton, wordPorts_singleton]
  unfold word at h
  split at h
  · cases h
  -- a word is used up by `shfsmount`, or handed on as it is or with a number in the place of its
  -- name
  cases hkind : wordKind w <;> simp only [hkind, reduceCtorEq, if_true, if_false] at h ⊢
  case cmdUser =>
    split at h
    · cases h
    · obtain ⟨u, -, rfl⟩ := Option.map_eq_some_iff.mp h
      exact .used (by rw [sent, hkind]) rfl rfl rfl rfl
  case cmd | persistent | type | stable =>
    obtain rfl := Option.some.inj h
    exact .used (by rw [sent, hkind]) rfl rfl rfl rfl
  case port =>
    split at h
    · cases h
    · obtain rfl := Option.some.inj h
      exact .used (by rw [sent, hkind]) rfl rfl rfl rfl
  case preserve =>
    obtain rfl := Option.some.inj h
    exact .passed (by rw [sent, hkind]) (fun text ht => ht.option _) rfl rfl rfl
  case uid =>
    obtain ⟨u, hu, rfl⟩ := Option.map_eq_some_iff.mp h
    have hsent : sent sys w = some (ascii "uid=" ++ dec u.1.toNat) := by
      simp only [sent, hkind, hu, Option.map_some]
    exact .passed hsent (fun text ht => ht.optionBuf _) rfl rfl rfl
  case gid =>
    obtain ⟨g, hg, rfl⟩ := Option.map_eq_some_iff.mp h
    have hsent : sent sys w = some (ascii "gid=" ++ dec g.toNat) := by
      simp only [sent, hkind, hg, Option.map_some]
    exact .passed hsent (fun text ht => ht.optionBuf _) rfl rfl rfl
  case user =>
    cases hname : sys.pwName with
    | none =>
      rw [hname] at h
      obtain rfl := Option.some.inj h
      have hsent : sent sys w = none := by simp only [sent, hkind, hname, Option.map_none]
      exact .used hsent rfl rfl rfl rfl
    | some name =>
      rw [hname] at h
      obtain rfl := Option.some.inj h
      have hsent : sent sys w = some (ascii "user=" ++ name) := by
        simp only [sent, hkind, hname, Option.map_some]
      exact .passed hsent (fun text ht => ht.optionBuf _) rfl rfl rfl
  case other =>
    obtain rfl := Option.some.inj h
    exact .passed (by rw [sent, hkind]) (fun text ht => ht.option _) rfl rfl rfl

/-- The program exits at a word that it does not accept. -/
theorem word_isSome (sys : Sys) (a : Args) (w : Bytes) :
    (word sys a w).isSome = accepts sys w := by
  rw [word, accepts]
  by_cases hno : (!sys.root && rootOnly w) = true
  · have hroot : (sys.root || !rootOnly w) = false := by simpa using hno
    rw [if_pos hno, hroot]
    rfl
  · have hroot : (sys.root || !rootOnly w) = true := by simpa [or_iff_not_imp_left] using hno
    rw [if_neg hno, hroot, Bool.true_and]
    cases wordKind w with
    | cmdUser => cases sys.root <;> simp
    | port => cases validPort (w.drop 5) <;> rfl
    | uid | gid => simp
    | user => cases sys.pwName <;> rfl
    | cmd | persistent | preserve | type | stable | other => rfl

theorem filterMap_cons_toList (w : Bytes) (ws : List Bytes) :
    (w :: ws).filterMap (sent sys) = (sent sys w).toList ++ ws.filterMap (sent sys) := by
  rw [List.filterMap_cons]
  cases sent sys w <;> rfl

/-- What the words of an argument bring. -/
theorem words_take {ws : List Bytes} (h : ws.foldlM (word sys) a = some a') :
    Takes (ws.filterMap (sent sys)) 0 (wordTemplates ws) (wordPorts ws) a a' := by
  induction ws generalizing a with
  | nil =>
    obtain rfl := Option.some.inj h
    exact .refl a
  | cons w ws ih =>
    rw [List.foldlM_cons] at h
    obtain ⟨b, hb, h⟩ := Option.bind_eq_some_iff.mp h
    have htakes := (word_takes hb).trans (ih h)
    rwa [← wordTemplates_append, ← wordPorts_append, ← filterMap_cons_toList] at htakes

/-- All words are accepted if the loop over them gets to the end. -/
theorem wordLoop_isSome (sys : Sys) (a : Args) (ws : List Bytes) :
    (ws.foldlM (word sys) a).isSome = ws.all (accepts sys) := by
  induction ws generalizing a with
  | nil => rfl
  | cons w ws ih =>
    rw [List.foldlM_cons, List.all_cons, ← word_isSome sys a w]
    cases word sys a w with
    | none => rfl
    | some b => exact ih b

/-- What a flag brings. -/
theorem flag_takes {f : Flag} (h : flag sys a f = some a') :
    Takes (f.words.filterMap (sent sys)) (if f = .verbose then 1 else 0) f.templates f.ports a
      a' := by
  cases f with
  | cmdUser arg =>
    rw [flag] at h
    split at h
    · cases h
    · obtain ⟨u, -, rfl⟩ := Option.map_eq_some_iff.mp h
      obtain ⟨ho, hv, ht, hp⟩ := Takes.refl a
      exact ⟨ho, hv, ht, hp⟩
  | port arg =>
    rw [flag] at h
    split at h
    · cases h
    · obtain rfl := Option.some.inj h
      obtain ⟨ho, hv, ht, -⟩ := Takes.refl a
      exact ⟨ho, hv, ht, rfl⟩
  | cmd arg =>
    obtain rfl := Option.some.inj h
    obtain ⟨ho, hv, -, hp⟩ := Takes.refl a
    exact ⟨ho, hv, rfl, hp⟩
  | stable arg =>
    cases arg with
    | none =>
      obtain rfl := Option.some.inj h
      obtain ⟨ho, hv, ht, hp⟩ := Takes.refl a
      exact ⟨ho, hv, ht, hp⟩
    | some arg =>
      obtain ⟨ho, hv, ht, hp⟩ := words_take h
      exact ⟨ho, hv, ht, hp⟩
  | options arg => exact words_take h
  | exit => cases h
  | verbose =>
    obtain rfl := Option.some.inj h
    obtain ⟨ho, -, ht, hp⟩ := Takes.refl a
    exact ⟨ho, rfl, ht, hp⟩
  | persistent | nomtab | type arg | compat =>
    obtain rfl := Option.some.inj h
    obtain ⟨ho, hv, ht, hp⟩ := Takes.refl a
    exact ⟨ho, hv, ht, hp⟩

/-- The program exits at a flag that it does not accept. -/
theorem flag_isSome (sys : Sys) (a : Args) (f : Flag) : (flag sys a f).isSome = f.accepted sys := by
  cases f with
  | cmdUser arg =>
    simp only [flag, Flag.accepted, Flag.words, List.all_nil, Bool.true_and]
    cases sys.root <;> simp
  | port arg =>
    simp only [flag, Flag.accepted, Flag.words, List.all_nil, Bool.true_and]
    cases validPort arg <;> rfl
  | stable arg =>
    cases arg with
    | none => rfl
    | some arg => exact (wordLoop_isSome sys _ _).trans (Bool.and_true _).symm
  | options arg => exact (wordLoop_isSome sys a _).trans (Bool.and_true _).symm
  | cmd | persistent | nomtab | type | verbose | compat | exit => rfl

/-- All words of such a flag are heard. -/
theorem takeWhile_accepts {f : Flag} (h : f.accepted sys = true) :
    f.words.takeWhile (accepts sys) = f.words := by
  obtain ⟨hwords, -⟩ := Bool.and_eq_true_iff.mp h
  exact List.takeWhile_eq_self_iff.mpr (List.all_eq_true.mp hwords)

/-- What the flags bring. -/
theorem flags_take {flags : List Flag} (h : flags.foldlM (flag sys) a = some a') :
    Takes ((words flags).filterMap (sent sys)) (flags.count .verbose)
      (flags.flatMap Flag.templates) (flags.flatMap Flag.ports) a a' := by
  induction flags generalizing a with
  | nil =>
    obtain rfl := Option.some.inj h
    exact .refl a
  | cons f flags ih =>
    rw [List.foldlM_cons] at h
    obtain ⟨b, hb, h⟩ := Option.bind_eq_some_iff.mp h
    rw [count_verbose_cons, words, List.flatMap_cons, List.filterMap_append]
    exact (flag_takes hb).trans (ih h)

/-! ## The lengths -/

theorem fits_of_append {text s : Bytes} (h : (text ++ s).length < BUFFER_MAX) :
    text.length < BUFFER_MAX :=
  (List.sublist_append_left text s).length_le.trans_lt h

theorem Holds.fits_iff {str text : Bytes} (h : Holds str text) :
    str.length < BUFFER_MAX ↔ text.length < BUFFER_MAX := by
  rcases h with rfl | ⟨hs, ht⟩
  · rfl
  · exact iff_of_false (Nat.not_lt.mpr hs) (Nat.not_lt.mpr ht)

/-- The words of an argument. -/
theorem wordStages_fit {text : Bytes} (h : Holds a.options text) (ws : List Bytes) :
    (∀ b ∈ wordStages sys a ws, b.options.length < BUFFER_MAX) ↔
      (text ++ behind ((ws.takeWhile (accepts sys)).filterMap (sent sys))).length < BUFFER_MAX := by
  induction ws generalizing a text with
  | nil => simpa [wordStages, behind] using h.fits_iff
  | cons w ws ih =>
    have haccepts := word_isSome sys a w
    rw [wordStages, List.forall_mem_cons, h.fits_iff]
    cases hw : word sys a w with
    | none =>
      rw [hw] at haccepts
      simp [← haccepts, behind]
    | some b =>
      rw [hw] at haccepts
      dsimp only
      rw [ih ((word_takes hw).options text h), List.takeWhile_cons_of_pos haccepts.symm,
        filterMap_cons_toList, behind_append, List.append_assoc]
      exact and_iff_right_of_imp fits_of_append

/-- A round of the loop over the options. -/
theorem flagStages_fit {text : Bytes} (h : Holds a.options text) (f : Flag) :
    (∀ b ∈ flagStages sys a f, b.options.length < BUFFER_MAX) ↔
      (text ++ behind ((f.words.takeWhile (accepts sys)).filterMap (sent sys))).length <
        BUFFER_MAX := by
  cases f with
  | options arg => exact wordStages_fit h _
  | stable arg =>
    cases arg with
    | none => simpa [flagStages, Flag.words, behind] using h.fits_iff
    | some arg => exact wordStages_fit (a := { a with stable := true }) h _
  | cmdUser | cmd | port | persistent | nomtab | type | verbose | compat | exit =>
    simpa [flagStages, Flag.words, behind] using h.fits_iff

/-- The loop over the options. -/
theorem argsStages_fit {text : Bytes} (h : Holds a.options text) (flags : List Flag) :
    (∀ b ∈ argsStages sys a flags, b.options.length < BUFFER_MAX) ↔
      (text ++ behind ((heard sys flags).filterMap (sent sys))).length < BUFFER_MAX := by
  induction flags generalizing a text with
  | nil => simpa [argsStages, heard, behind] using h.fits_iff
  | cons f flags ih =>
    have haccepted := flag_isSome sys a f
    rw [argsStages, List.forall_mem_append, flagStages_fit h, heard, List.filterMap_append,
      behind_append, ← List.append_assoc]
    cases hf : flag sys a f with
    | none =>
      rw [hf] at haccepted
      simp [← haccepted, behind]
    | some b =>
      rw [hf] at haccepted
      have haccepted : f.accepted sys = true := haccepted.symm
      dsimp only
      rw [ih ((flag_takes hf).options text h), takeWhile_accepts haccepted, if_pos haccepted]
      exact and_iff_right_of_imp fits_of_append

/-- The program exits at a flag that it does not accept. -/
theorem flags_isSome (sys : Sys) (a : Args) (flags : List Flag) :
    (flags.foldlM (flag sys) a).isSome = flags.all (·.accepted sys) := by
  induction flags generalizing a with
  | nil => rfl
  | cons f flags ih =>
    rw [List.foldlM_cons, List.all_cons, ← flag_isSome sys a f]
    cases flag sys a f with
    | none => rfl
    | some b => exact ih b

/-- All words are heard if all flags are accepted. -/
theorem heard_eq {flags : List Flag} (h : flags.all (·.accepted sys) = true) :
    heard sys flags = words flags := by
  induction flags with
  | nil => rfl
  | cons f flags ih =>
    rw [List.all_cons, Bool.and_eq_true] at h
    rw [heard, if_pos h.1, ih h.2, takeWhile_accepts h.1]
    rfl

end Loops

/-! ## The whole command line -/

section Main

variable {sys : Sys} {flags : List Flag} {args : List Bytes}

theorem behind_singleton (s : Bytes) : behind [s] = comma :: s := List.flatMap_singleton ..

/-- The mount point. -/
theorem Holds.mnt {str text : Bytes} (h : Holds str text) (mnt : Bytes) :
    Holds (strnconcat str [ascii ",mnt=", mnt]) (text ++ behind [ascii "mnt=" ++ mnt]) := by
  have hmnt := (h.piece (ascii ",mnt=")).piece mnt
  rw [List.append_assoc] at hmnt
  rw [behind_singleton]
  exact hmnt

/-- A number behind that. -/
theorem Holds.number {str text : Bytes} (h : Holds str text) (hne : text ≠ []) (s : Bytes) (n : ℕ) :
    Holds (strnconcat str [intoBuf (comma :: s ++ dec n)]) (text ++ behind [s ++ dec n]) := by
  rw [behind_singleton]
  exact h.pieceBuf hne _

/-- `options` from `,mnt=` on. -/
theorem behindMount_fit {a : Args} {text : Bytes} (h : Holds a.options text)
    (host : Option Bytes) (mnt : Bytes) :
    (∀ o ∈ behindMount sys a host mnt, o.length < BUFFER_MAX) ↔
      (text ++ behind ((ascii "mnt=" ++ mnt) ::
        (if a.verbose ≠ 0 then [ascii "debug=" ++ dec a.verbose] else []) ++
          if a.cmdTemplate.isNone && host.isNone then []
          else (sys.createSocket.map fun sock => ascii "fd=" ++ dec sock).toList)).length <
        BUFFER_MAX := by
  have hne : ∀ s, text ++ behind [ascii "mnt=" ++ mnt] ++ s ≠ [] := by
    intro s
    simp [behind_singleton]
  have hmnt := h.mnt mnt
  have hdebug : Holds (if a.verbose ≠ 0 then
        strnconcat (strnconcat a.options [ascii ",mnt=", mnt])
          [intoBuf (ascii ",debug=" ++ dec a.verbose)]
      else strnconcat a.options [ascii ",mnt=", mnt])
      (text ++ behind [ascii "mnt=" ++ mnt] ++
        behind (if a.verbose ≠ 0 then [ascii "debug=" ++ dec a.verbose] else [])) := by
    split
    · have hn := hne []
      rw [List.append_nil] at hn
      exact hmnt.number hn (ascii "debug=") a.verbose
    · rw [behind, behind, List.flatMap_nil, List.append_nil]
      exact hmnt
  have hfd : ∀ sock, Holds _ _ := fun sock => hdebug.number (hne _) (ascii "fd=") sock
  have hcons : behind ((ascii "mnt=" ++ mnt) ::
      if a.verbose ≠ 0 then [ascii "debug=" ++ dec a.verbose] else []) =
      behind [ascii "mnt=" ++ mnt] ++
        behind (if a.verbose ≠ 0 then [ascii "debug=" ++ dec a.verbose] else []) :=
    behind_append [_] _
  dsimp only [behindMount]
  rw [List.forall_mem_cons, List.forall_mem_cons, hmnt.fits_iff, hdebug.fits_iff, behind_append,
    hcons, ← List.append_assoc, ← List.append_assoc,
    and_iff_right_of_imp fun hrest => fits_of_append hrest.1]
  by_cases hcmd : (a.cmdTemplate.isNone && host.isNone) = true
  · rw [if_pos hcmd, if_pos hcmd]
    simp [behind]
  · rw [if_neg hcmd, if_neg hcmd]
    cases sys.createSocket with
    | none => simp [behind]
    | some sock =>
      dsimp only
      rw [List.forall_mem_singleton, Option.map_some, Option.toList_some]
      exact (and_congr_right' (hfd sock).fits_iff).trans (and_iff_right_of_imp fits_of_append)

/-- What `main` has in `options`. -/
theorem optionsContents_fit (sys : Sys) (flags : List Flag) (args : List Bytes) :
    (∀ o ∈ optionsContents sys flags args, o.length < BUFFER_MAX) ↔
      (joinWith comma (optionTexts sys flags args)).length < BUFFER_MAX := by
  have hstart : Holds Args.start.options (ascii "version=" ++ dec PROTO_VERSION) := Or.inl rfl
  have hflags := flags_isSome sys .start flags
  rw [optionsContents, List.forall_mem_append, List.forall_mem_map, argsStages_fit hstart,
    optionTexts, List.cons_append, joinWith_behind, behind_append, ← List.append_assoc]
  cases ha : flags.foldlM (flag sys) .start with
  | none =>
    rw [ha] at hflags
    simp [acceptedMount, ← hflags, behind]
  | some a =>
    rw [ha] at hflags
    have hall : flags.all (·.accepted sys) = true := hflags.symm
    obtain ⟨hoptions, hverbose, htemplate, -⟩ := flags_take ha
    rw [acceptedMount, if_pos hall]
    cases mountPoint sys args with
    | none => simp [behind]
    | some p =>
      obtain ⟨host, mnt⟩ := p
      have hcount : a.verbose = flags.count .verbose := hverbose.trans (Nat.zero_add _)
      have htemplate : a.cmdTemplate = templateOf flags := htemplate.trans (Option.or_none ..)
      have hfit := @behindMount_fit sys a _ (hoptions _ hstart) host mnt
      rw [hcount, htemplate, ← heard_eq hall] at hfit
      dsimp only
      rw [hfit]
      exact and_iff_right_of_imp fits_of_append

/-- The pieces of a command. -/
theorem Holds.pieces {str text : Bytes} (h : Holds str text) (ps : List Bytes) :
    Holds (strnconcat str ps) (text ++ ps.flatten) := by
  induction ps generalizing str text with
  | nil => rwa [List.flatten_nil, List.append_nil]
  | cons s ps ih =>
    rw [List.flatten_cons, ← List.append_assoc]
    exact ih (h.piece s)

/-- The expansion of a template, piece by piece. -/
theorem templateCalls_fit (v : Placeholders) (t : Bytes) :
    (∀ c ∈ (templateCalls v t).inits.map (strnconcat []), c.length < BUFFER_MAX) ↔
      (expand v t).length < BUFFER_MAX := by
  have hpieces : ∀ ps, (strnconcat [] ps).length < BUFFER_MAX ↔ ps.flatten.length < BUFFER_MAX :=
    fun ps => (Holds.pieces (Or.inl rfl) ps).fits_iff
  simp only [List.forall_mem_map, List.mem_inits, hpieces, ← flatten_templateCalls]
  refine ⟨fun h => h _ (List.prefix_refl _), fun h ps hps => ?_⟩
  obtain ⟨qs, hqs⟩ := hps
  rw [← hqs, List.flatten_append] at h
  exact fits_of_append h

/-- What `main` has in `cmd`. -/
theorem cmdContents_fit (sys : Sys) (flags : List Flag) (args : List Bytes) :
    (∀ c ∈ cmdContents sys flags args, c.length < BUFFER_MAX) ↔
      ∀ host mnt t, acceptedMount sys flags args = some (host, mnt) → templateOf flags = some t →
        (expand ⟨userOf args, host, portOf flags⟩ t).length < BUFFER_MAX := by
  have hflags := flags_isSome sys .start flags
  rw [cmdContents, acceptedMount]
  cases ha : flags.foldlM (flag sys) .start with
  | none =>
    rw [ha] at hflags
    simp [← hflags]
  | some a =>
    rw [ha] at hflags
    have hall : flags.all (·.accepted sys) = true := hflags.symm
    obtain ⟨-, -, htemplate, hport⟩ := flags_take ha
    have htemplate : a.cmdTemplate = templateOf flags := htemplate.trans (Option.or_none ..)
    have hport : a.port = portOf flags := hport.trans (Option.or_none ..)
    rw [if_pos hall]
    cases mountPoint sys args with
    | none => simp
    | some p =>
      obtain ⟨host, mnt⟩ := p
      dsimp only
      rw [htemplate, hport]
      cases templateOf flags with
      | some t => simpa using templateCalls_fit ⟨userOf args, host, portOf flags⟩ t
      | none =>
        refine iff_of_true ?_ (fun _ _ _ _ h => by cases h)
        cases host with
        | none => exact fun c hc => by cases hc
        | some host =>
          intro c hc
          rw [List.mem_singleton.mp hc]
          exact (List.length_take_le ..).trans_lt (by decide)

/-- **The command lines that stay inside the arrays** are those that fit: `options` has room for
everything that `main` puts together in it, and `cmd` for the command, or, with a template, for what
is there behind each call of `strnconcat`. The bound of `strnconcat` is one for each of the pieces,
so it does not notice when they do not fit together. -/
theorem arrays_iff (sys : Sys) (flags : List Flag) (args : List Bytes) :
    ((∀ o ∈ optionsContents sys flags args, o.length < BUFFER_MAX) ∧
      ∀ c ∈ cmdContents sys flags args, c.length < BUFFER_MAX) ↔ FitsArrays sys flags args := by
  rw [optionsContents_fit, cmdContents_fit]
  exact ⟨fun h => ⟨h.1, h.2⟩, fun h => ⟨h.options, h.cmd⟩⟩

/-- The last of the contents of `options` is what `mount()` gets. `shfsmount` is the option loop
without its array, so this is where the two models of `main` meet. -/
theorem mem_optionsContents {m : Mounted} (h : shfsmount sys flags args = some m) :
    m.options ∈ optionsContents sys flags args := by
  unfold shfsmount at h
  obtain ⟨a, ha, h⟩ := Option.bind_eq_some_iff.mp h
  obtain ⟨⟨host, path⟩, hargs, h⟩ := Option.bind_eq_some_iff.mp h
  obtain ⟨mnt, hmnt, h⟩ := Option.bind_eq_some_iff.mp h
  by_cases hok : sys.mountOk mnt = true
  swap
  · simp [hok] at h
  by_cases hcmd : (a.cmdTemplate.isNone && host.isNone) = true
  · simp [hcmd] at h
  dsimp only at h
  rw [hok, if_neg (by simp), if_neg hcmd] at h
  obtain ⟨sock, hsock, h⟩ := Option.bind_eq_some_iff.mp h
  obtain rfl := Option.some.inj h
  have hpoint : mountPoint sys args = some (host, mnt) := by
    simp [mountPoint, hargs, hmnt, hok]
  rw [optionsContents, ha, hpoint]
  refine List.mem_append_right _ ?_
  simp [behindMount, hcmd, hsock]

/-- **What `mount()` gets** ends inside of `options`, if the command line stays inside the arrays.
The kernel then reads the options that `shfsmount` has put together and nothing behind them. -/
theorem FitsArrays.room {m : Mounted} (hfits : FitsArrays sys flags args)
    (h : shfsmount sys flags args = some m) : m.options.length < BUFFER_MAX :=
  (optionsContents_fit ..).mpr hfits.options _ (mem_optionsContents h)

end Main

/-! ## Two options -/

/-- **A long option of a user** is more than `options` has room for. -/
theorem not_arrays_longOption :
    ¬ ∀ (sys : Sys) (flags : List Flag) (args : List Bytes),
      (∀ o ∈ optionsContents sys flags args, o.length < BUFFER_MAX) ∧
        ∀ c ∈ cmdContents sys flags args, c.length < BUFFER_MAX := by
  intro h
  have hfit := (h userSys [.options (List.replicate 1020 97)] []).1
  rw [optionsContents_fit] at hfit
  exact absurd hfit (by decide +kernel)

end Shfs
