import Shfs.Command

/-!
# What the server reads of a command

The line a builder hands to `sock_write`, decoded by the server's `getline`. `Request` collects
the commands the client functions can build, `Request.built` is the builder applied to it and
`Request.words` the arguments that are meant.

Every builder starts the same way, so its line is the head `cmd ++ ugidText` followed by its
arguments, and the buffer it leaves is `Sockbuf.of` of some string: nothing is ever written behind
the terminator of the string in the buffer. What remains is arithmetic on lengths, and the decoder
lemmas of `Shfs.Getline`:

* with a group list that is not empty, the head decodes to the command word, `%d` of the uid and
  `%d` of the groups (`scan_head`);
* with an empty group list the third word starts in an unclosed quote, and never becomes the empty
  word that is meant (`scan_no_groups`);
* a line cut by `snprintf` leaves the decoder waiting (`scan_front`).

`delivers_iff` assembles them: when exactly the server reads what the client meant.
-/

namespace Shfs

open Lib

/-! ## The string in the buffer -/

theorem SOCKBUF_SIZE_eq : SOCKBUF_SIZE = 5120 := rfl

/-- The buffer after building the string `s`, with nothing written behind its terminator. -/
def Sockbuf.of (s : Bytes) : Sockbuf := ⟨s, s.length + 1⟩

theorem Sockbuf.of_strcpy (s t : Bytes) : (of s).strcpy s.length t = of (s ++ t) := by
  rw [strcpy_end (of s) (p := s.length) rfl]
  simp only [of, List.length_append, Sockbuf.mk.injEq, true_and]
  omega

/-- Copying two octets over the last one. -/
theorem Sockbuf.of_strcpy_back (s : Bytes) (c x y : Byte) :
    (of (s ++ [c])).strcpy s.length [x, y] = of (s ++ [x, y]) := by
  simp only [of, strcpy, List.take_left', Sockbuf.mk.injEq, List.length_append, List.length_cons,
    List.length_nil, true_and]
  omega

/-- An `snprintf` at the end of the string cuts what it appends. -/
theorem Sockbuf.of_snprintf (s t : Bytes) {n : ℕ} (hn : 0 < n) :
    (of s).snprintf s.length n t = of (s ++ t.take (n - 1)) := by
  rw [snprintf, if_neg (by omega), of_strcpy]

/-! ## `get_ugid` -/

/-- What `get_ugid` writes when there is room. With no groups the opening quote has been
overwritten by the closing one. -/
def ugidText (preserveOwn : Bool) (cred : Cred) : Bytes :=
  if preserveOwn then
    [sp] ++ fmtD cred.uid ++ [sp] ++
      (if cred.groups = [] then [] else apos :: joinWith sp (cred.groups.map fmtD)) ++ [apos, sp]
  else [sp]

/-- How many octets that is. -/
def Cred.width (preserveOwn : Bool) (cred : Cred) : ℕ :=
  if preserveOwn then
    4 + (fmtD cred.uid).length + (cred.groups.map fun g => (fmtD g).length + 1).sum
  else 1

/-- The text of the groups inside the loop of `get_ugid`, each followed by a space. -/
def groupText (gs : List UInt32) : Bytes := gs.flatMap fun g => fmtD g ++ [sp]

theorem groupText_eq {gs : List UInt32} (h : gs ≠ []) :
    groupText gs = joinWith sp (gs.map fmtD) ++ [sp] := by
  rw [joinWith_append_sep sp (by simpa using h), List.flatMap_map]
  rfl

theorem length_groupText (gs : List UInt32) :
    (groupText gs).length = (gs.map fun g => (fmtD g).length + 1).sum := by
  simp [groupText, List.length_flatMap]

theorem length_ugidText (preserveOwn : Bool) (cred : Cred) :
    (ugidText preserveOwn cred).length = cred.width preserveOwn := by
  unfold ugidText Cred.width
  split
  · rw [← length_groupText]
    split
    · next h =>
      simp [h, groupText]
      omega
    · next h =>
      rw [groupText_eq h]
      simp
      omega
  · rfl

theorem length_fmtD_le (x : UInt32) : (fmtD x).length ≤ 11 := by
  have hx := x.toNat_lt
  unfold fmtD
  split
  · have := length_dec_le (n := x.toNat) (k := 10) (by omega) (by omega)
    omega
  · have := length_dec_le (n := 2 ^ 32 - x.toNat) (k := 10) (by omega) (by omega)
    rw [List.length_append]
    have : (ascii "-").length = 1 := rfl
    omega

/-- The loop over the groups, when the last one still leaves room for the closing quote. -/
theorem getUgidGroups_fit {str max : ℕ} (gs : List UInt32) : ∀ {s : Bytes}, str ≤ s.length →
    s.length - str + (groupText gs).length + 2 ≤ max →
    getUgidGroups str max (.of s) s.length gs =
      (.of (s ++ groupText gs), some (s ++ groupText gs).length) := by
  induction gs with
  | nil =>
    intro s _ _
    simp [getUgidGroups, groupText]
  | cons g gs ih =>
    intro s hs hroom
    have hcons : groupText (g :: gs) = (fmtD g ++ [sp]) ++ groupText gs := rfl
    rw [hcons, List.length_append] at hroom
    have hlen : (s ++ (fmtD g ++ [sp])).length = s.length + (fmtD g ++ [sp]).length :=
      List.length_append
    rw [getUgidGroups, if_neg (by omega), Sockbuf.of_strcpy, ← hlen, ih (by omega) (by omega),
      hcons, List.append_assoc s]

/-- The loop over the groups gives up at the first group that does not fit, and what it has
written by then is inside the bound. -/
theorem getUgidGroups_long (str max : ℕ) (gs : List UInt32) (hne : gs ≠ []) : ∀ {s : Bytes},
    str ≤ s.length → s.length + 1 ≤ str + max →
    max < s.length - str + (groupText gs).length + 2 →
    ∃ t, getUgidGroups str max (.of s) s.length gs = (.of t, none) ∧ t.length + 1 ≤ str + max := by
  induction gs with
  | nil => exact absurd rfl hne
  | cons g gs ih =>
    intro s hs hin hroom
    have hcons : groupText (g :: gs) = (fmtD g ++ [sp]) ++ groupText gs := rfl
    rw [hcons, List.length_append] at hroom
    have hlen : (s ++ (fmtD g ++ [sp])).length = s.length + (fmtD g ++ [sp]).length :=
      List.length_append
    rw [getUgidGroups]
    split
    · exact ⟨s, rfl, hin⟩
    · rw [Sockbuf.of_strcpy, ← hlen]
      cases gs with
      | nil =>
        have : (groupText []).length = 0 := rfl
        omega
      | cons g' gs => exact ih (by simp) (by omega) (by omega) (by omega)

section Start

variable {preserveOwn : Bool} {cred : Cred} {cmd : Bytes}

/-- The part of the line every builder starts with. -/
def headText (preserveOwn : Bool) (cred : Cred) (cmd : Bytes) : Bytes :=
  cmd ++ ugidText preserveOwn cred

theorem length_headText (preserveOwn : Bool) (cred : Cred) (cmd : Bytes) :
    (headText preserveOwn cred cmd).length = cmd.length + cred.width preserveOwn := by
  rw [headText, List.length_append, length_ugidText]

theorem startLine_fit (preserveOwn : Bool) (cred : Cred) (hcmd : cmd.length ≤ 20)
    (h : (headText preserveOwn cred cmd).length + 1 ≤ SOCKBUF_SIZE) :
    startLine preserveOwn cred cmd =
      (.of (headText preserveOwn cred cmd), some (headText preserveOwn cred cmd).length) := by
  have hS := SOCKBUF_SIZE_eq
  have h0 : (⟨[], 0⟩ : Sockbuf).strcpy 0 cmd = .of cmd := by simp [Sockbuf.strcpy, Sockbuf.of]
  rw [startLine, h0, getUgid, if_neg (by omega)]
  cases preserveOwn with
  | false =>
    simp only [Bool.false_eq_true, if_false, Sockbuf.of_strcpy, headText, ugidText,
      List.length_append, List.length_singleton]
  | true =>
    have hD := length_fmtD_le cred.uid
    set pre := cmd ++ [sp] ++ (fmtD cred.uid ++ [sp]) with hpre
    have hbuf : ((Sockbuf.of cmd).strcpy cmd.length [sp]).strcpy (cmd.length + 1)
        (fmtD cred.uid ++ [sp, apos]) = .of (pre ++ [apos]) := by
      rw [Sockbuf.of_strcpy, show cmd.length + 1 = (cmd ++ [sp]).length by simp, Sockbuf.of_strcpy,
        hpre]
      simp
    have hs : cmd.length + 1 + (fmtD cred.uid ++ [sp, apos]).length = (pre ++ [apos]).length := by
      simp [hpre]
      omega
    simp only [if_true, hbuf, hs]
    rw [if_neg (by simp; omega)]
    by_cases hg : cred.groups = []
    · -- no groups: the loop does nothing and the opening quote is overwritten
      have htext : headText true cred cmd = pre ++ [apos, sp] := by
        simp [headText, ugidText, hg, hpre]
      rw [hg, getUgidGroups, htext]
      simp only
      rw [show (pre ++ [apos]).length - 1 = pre.length by simp, Sockbuf.of_strcpy_back]
      simp
    · have htext : headText true cred cmd =
          pre ++ [apos] ++ joinWith sp (cred.groups.map fmtD) ++ [apos, sp] := by
        simp [headText, ugidText, hg, hpre]
      -- the blank behind the last group is overwritten by the closing quote
      have hgt := groupText_eq hg
      have hlen := congrArg List.length htext
      have hglen := congrArg List.length hgt
      simp only [List.length_append, List.length_cons, List.length_nil] at hlen hglen
      rw [getUgidGroups_fit _ (by rw [hpre]; simp) (by simp [hpre] at hlen ⊢; omega), htext,
        hgt]
      simp only
      rw [← List.append_assoc (pre ++ [apos]), show
        (pre ++ [apos] ++ joinWith sp (cred.groups.map fmtD) ++ [sp]).length - 1 =
          (pre ++ [apos] ++ joinWith sp (cred.groups.map fmtD)).length by simp,
        Sockbuf.of_strcpy_back]
      simp only [List.length_append, List.length_cons, List.length_nil]

theorem startLine_long (preserveOwn : Bool) (cred : Cred) (hcmd : cmd.length ≤ 20)
    (h : SOCKBUF_SIZE < (headText preserveOwn cred cmd).length + 1) :
    ∃ t, startLine preserveOwn cred cmd = (.of t, none) ∧ t.length + 1 ≤ SOCKBUF_SIZE := by
  have hS := SOCKBUF_SIZE_eq
  have h0 : (⟨[], 0⟩ : Sockbuf).strcpy 0 cmd = .of cmd := by simp [Sockbuf.strcpy, Sockbuf.of]
  rw [length_headText] at h
  cases preserveOwn with
  | false =>
    simp only [Cred.width, Bool.false_eq_true, if_false] at h
    omega
  | true =>
    have hD := length_fmtD_le cred.uid
    simp only [Cred.width, if_true, ← length_groupText] at h
    have hne : cred.groups ≠ [] := by
      intro hg
      rw [hg] at h
      have : (groupText []).length = 0 := rfl
      omega
    set pre := cmd ++ [sp] ++ (fmtD cred.uid ++ [sp, apos]) with hpre
    have hbuf : ((Sockbuf.of cmd).strcpy cmd.length [sp]).strcpy (cmd.length + 1)
        (fmtD cred.uid ++ [sp, apos]) = .of pre := by
      rw [Sockbuf.of_strcpy, show cmd.length + 1 = (cmd ++ [sp]).length by simp, Sockbuf.of_strcpy]
    have hs : cmd.length + 1 + (fmtD cred.uid ++ [sp, apos]).length = pre.length := by
      simp [hpre]
      omega
    have hprelen : pre.length = cmd.length + (fmtD cred.uid).length + 3 := by
      simp [hpre]
      omega
    obtain ⟨t, ht, htlen⟩ := getUgidGroups_long cmd.length
      (SOCKBUF_SIZE - cmd.length) cred.groups hne (s := pre) (by omega) (by omega) (by omega)
    refine ⟨t, ?_, by omega⟩
    rw [startLine, h0, getUgid, if_neg (by omega)]
    simp only [if_true, hbuf, hs]
    rw [if_neg (by simp; omega), ht]

/-! ## The builders -/

variable {args : Bytes}

theorem doCommandLine_fit (hcmd : cmd.length ≤ 20)
    (h : (headText preserveOwn cred cmd).length + args.length + 2 ≤ SOCKBUF_SIZE) :
    doCommandLine preserveOwn cred cmd args =
      ⟨.of (headText preserveOwn cred cmd ++ args ++ [nl]),
        some (headText preserveOwn cred cmd ++ args ++ [nl])⟩ := by
  have hstart := startLine_fit preserveOwn cred hcmd (by omega)
  generalize headText preserveOwn cred cmd = head at *
  have htake : args.take (SOCKBUF_SIZE - head.length - 1) = args :=
    List.take_of_length_le (by omega)
  have hlen : (head ++ args).length = head.length + args.length := List.length_append
  rw [doCommandLine, hstart]
  simp only [Sockbuf.of_snprintf _ _ (show 0 < SOCKBUF_SIZE - head.length by omega), htake]
  rw [if_neg (by simp only [Sockbuf.of]; omega), ← hlen, Sockbuf.of_strcpy]
  rfl

theorem doCommandLine_long (hcmd : cmd.length ≤ 20)
    (h : SOCKBUF_SIZE < (headText preserveOwn cred cmd).length + args.length + 2) :
    ∃ t, doCommandLine preserveOwn cred cmd args = ⟨.of t, none⟩ ∧ t.length + 1 ≤ SOCKBUF_SIZE := by
  by_cases hhead : (headText preserveOwn cred cmd).length + 1 ≤ SOCKBUF_SIZE
  · have hstart := startLine_fit preserveOwn cred hcmd hhead
    generalize headText preserveOwn cred cmd = head at *
    have hcut : (head ++ args.take (SOCKBUF_SIZE - head.length - 1)).length = SOCKBUF_SIZE - 1 := by
      rw [List.length_append, List.length_take]
      omega
    refine ⟨head ++ args.take (SOCKBUF_SIZE - head.length - 1), ?_, by omega⟩
    rw [doCommandLine, hstart]
    simp only [Sockbuf.of_snprintf _ _ (show 0 < SOCKBUF_SIZE - head.length by omega)]
    rw [if_pos (by simp only [Sockbuf.of]; omega)]
  · obtain ⟨t, ht, htlen⟩ := startLine_long preserveOwn cred hcmd
      (by omega)
    exact ⟨t, by rw [doCommandLine, ht], htlen⟩

theorem pathLine_fit (hcmd : cmd.length ≤ 20) {file : Bytes}
    (h : (headText preserveOwn cred cmd).length + (squoted file).length + 2 ≤ SOCKBUF_SIZE) :
    pathLine preserveOwn cred cmd file =
      ⟨.of (headText preserveOwn cred cmd ++ squoted file ++ [nl]),
        some (headText preserveOwn cred cmd ++ squoted file ++ [nl])⟩ := by
  have hsq : (squoted file).length = file.length + 2 := by simp [squoted]
  have hstart := startLine_fit preserveOwn cred hcmd (by omega)
  generalize headText preserveOwn cred cmd = head at *
  have h₁ : head.length + 1 = (head ++ [apos]).length := by simp
  have h₂ : (head ++ [apos]).length + file.length = (head ++ [apos] ++ file).length :=
    List.length_append.symm
  have h₃ : (head ++ [apos] ++ file).length + 1 = (head ++ [apos] ++ file ++ [apos]).length := by
    rw [@List.length_append _ (head ++ [apos] ++ file), List.length_singleton]
  rw [pathLine, hstart]
  simp only
  rw [if_neg (by omega), Sockbuf.of_strcpy, h₁, Sockbuf.of_strcpy, h₂, Sockbuf.of_strcpy, h₃,
    Sockbuf.of_strcpy]
  simp [Sockbuf.of, squoted]

theorem pathLine_long (hcmd : cmd.length ≤ 20) {file : Bytes}
    (h : SOCKBUF_SIZE < (headText preserveOwn cred cmd).length + (squoted file).length + 2) :
    ∃ t, pathLine preserveOwn cred cmd file = ⟨.of t, none⟩ ∧ t.length + 1 ≤ SOCKBUF_SIZE := by
  have hsq : (squoted file).length = file.length + 2 := by simp [squoted]
  by_cases hhead : (headText preserveOwn cred cmd).length + 1 ≤ SOCKBUF_SIZE
  · refine ⟨headText preserveOwn cred cmd, ?_, hhead⟩
    rw [pathLine, startLine_fit preserveOwn cred hcmd hhead]
    simp only
    rw [if_pos (by omega)]
  · obtain ⟨t, ht, htlen⟩ := startLine_long preserveOwn cred hcmd
      (by omega)
    exact ⟨t, by rw [pathLine, ht], htlen⟩

/-- `printLine` sends whatever fits of the line. -/
theorem printLine_fit (hcmd : cmd.length ≤ 20) {rest : Bytes}
    (h : (headText preserveOwn cred cmd).length + 1 ≤ SOCKBUF_SIZE) :
    printLine preserveOwn cred cmd rest =
      ⟨.of ((headText preserveOwn cred cmd ++ rest).take (SOCKBUF_SIZE - 1)),
        some ((headText preserveOwn cred cmd ++ rest).take (SOCKBUF_SIZE - 1))⟩ := by
  have hstart := startLine_fit preserveOwn cred hcmd h
  generalize headText preserveOwn cred cmd = head at *
  have htake : (head ++ rest).take (SOCKBUF_SIZE - 1) =
      head ++ rest.take (SOCKBUF_SIZE - head.length - 1) := by
    rw [List.take_append, List.take_of_length_le (by omega)]
    congr 2
    omega
  rw [printLine, hstart]
  simp only [Sockbuf.of_snprintf _ _ (show 0 < SOCKBUF_SIZE - head.length by omega), htake]
  rfl

theorem printLine_long (hcmd : cmd.length ≤ 20) {rest : Bytes}
    (h : SOCKBUF_SIZE < (headText preserveOwn cred cmd).length + 1) :
    ∃ t, printLine preserveOwn cred cmd rest = ⟨.of t, none⟩ ∧ t.length + 1 ≤ SOCKBUF_SIZE := by
  obtain ⟨t, ht, htlen⟩ := startLine_long preserveOwn cred hcmd h
  exact ⟨t, by rw [printLine, ht], htlen⟩

theorem shellStatfsLine_fit
    (h : (headText preserveOwn cred (ascii "s_statfs")).length + 1 ≤ SOCKBUF_SIZE) :
    shellStatfsLine preserveOwn cred =
      ⟨.of (headText preserveOwn cred (ascii "s_statfs") ++ [nl]),
        some (headText preserveOwn cred (ascii "s_statfs") ++ [nl])⟩ := by
  rw [shellStatfsLine, startLine_fit preserveOwn cred (by decide) h]
  simp only [Sockbuf.of_strcpy]
  rfl

theorem shellStatfsLine_long
    (h : SOCKBUF_SIZE < (headText preserveOwn cred (ascii "s_statfs")).length + 1) :
    ∃ t, shellStatfsLine preserveOwn cred = ⟨.of t, none⟩ ∧ t.length + 1 ≤ SOCKBUF_SIZE := by
  obtain ⟨t, ht, htlen⟩ := startLine_long preserveOwn cred (by decide) h
  exact ⟨t, by rw [shellStatfsLine, ht], htlen⟩

end Start

/-! ## Decoding the head -/

theorem isDigit_or_minus_of_mem_fmtD {x : UInt32} {c : Byte} (h : c ∈ fmtD x) :
    isDigit c = true ∨ c = 45 := by
  unfold fmtD at h
  split at h
  · exact Or.inl (isDigit_of_mem_dec h)
  · rcases List.mem_append.mp h with h | h
    · exact Or.inr (List.mem_singleton.mp h)
    · exact Or.inl (isDigit_of_mem_dec h)

theorem fmtD_ne_nil (x : UInt32) : fmtD x ≠ [] := by
  unfold fmtD
  split
  · exact numeral_ne_nil _ _
  · simp [ascii]

theorem bareWord_fmtD (x : UInt32) : BareWord (fmtD x) := by
  refine ⟨fmtD_ne_nil x, fun c hc => ?_⟩
  rcases isDigit_or_minus_of_mem_fmtD hc with h | rfl
  · exact ⟨ne_of_isDigit h rfl, ne_of_isDigit h rfl, ne_of_isDigit h rfl⟩
  · decide

/-- `%d` prints a number only below 2^31. -/
theorem fmtD_eq_dec_iff (x : UInt32) : fmtD x = dec x.toNat ↔ x.toNat < 2 ^ 31 := by
  unfold fmtD
  split
  · next h => exact ⟨fun _ => h, fun _ => rfl⟩
  · next h =>
    refine ⟨fun heq => ?_, fun hlt => absurd hlt h⟩
    have hmem : (45 : Byte) ∈ dec x.toNat := heq ▸ List.mem_cons_self ..
    exact absurd (isDigit_of_mem_dec hmem) (by decide)

/-- What the credential fields decode to. -/
def sentCred (preserveOwn : Bool) (cred : Cred) : List Bytes :=
  if preserveOwn then [fmtD cred.uid, joinWith sp (cred.groups.map fmtD)] else []

/-- What they mean: the uid, and the groups joined by single spaces. -/
def meantCred (preserveOwn : Bool) (cred : Cred) : List Bytes :=
  if preserveOwn then
    [dec cred.uid.toNat, joinWith sp (cred.groups.map fun g => dec g.toNat)]
  else []

theorem apos_notMem_joinWith {ws : List Bytes} (h : ∀ w ∈ ws, apos ∉ w) :
    apos ∉ joinWith sp ws := by
  induction ws with
  | nil => simp
  | cons w ws ih =>
    have hw := h w (List.mem_cons_self ..)
    have hws := ih fun v hv => h v (List.mem_cons_of_mem _ hv)
    cases ws with
    | nil => simpa using hw
    | cons v vs =>
      rw [joinWith_cons_cons, List.mem_append, List.mem_cons]
      rintro (h | h | h)
      · exact hw h
      · cases h
      · exact hws h

theorem apos_notMem_groups (gs : List UInt32) : apos ∉ joinWith sp (gs.map fmtD) := by
  refine apos_notMem_joinWith fun w hw hmem => ?_
  obtain ⟨g, -, rfl⟩ := List.mem_map.mp hw
  exact ((bareWord_fmtD g).2 _ hmem).2.1 rfl

/-- **The head decodes** to the command word and the credential fields, when there is a group to
close the quote after. -/
theorem scan_head {preserveOwn : Bool} {cred : Cred} {cmd : Bytes} (hcmd : BareWord cmd)
    (hg : preserveOwn = true → cred.groups ≠ []) (rest : Bytes) :
    scan getlineStep .init (headText preserveOwn cred cmd ++ rest) =
      scan getlineStep ⟨.between, [], cmd :: sentCred preserveOwn cred⟩ rest := by
  cases preserveOwn with
  | false =>
    have hok : ∀ w ∈ [Word.bare cmd], w.Ok := by simpa [Word.Ok] using hcmd
    have := scan_words hok [] rest
    simpa [headText, ugidText, sentCred, Word.text, Word.value, Getline.init] using this
  | true =>
    have hok : ∀ w ∈ [Word.bare cmd, .bare (fmtD cred.uid),
        .quoted (joinWith sp (cred.groups.map fmtD))], w.Ok := by
      intro w hw
      simp only [List.mem_cons, List.not_mem_nil, or_false] at hw
      rcases hw with rfl | rfl | rfl
      · exact hcmd
      · exact bareWord_fmtD _
      · trivial
    have := scan_words hok [] rest
    simpa [headText, ugidText, sentCred, Word.text, Word.value, Getline.init, hg rfl,
      quoteText_eq_self (apos_notMem_groups cred.groups)] using this

/-- The arguments and the line feed. -/
theorem scan_args {ws : List Word} (h : ∀ w ∈ ws, w.Ok) (args : List Bytes) (rest : Bytes) :
    scan getlineStep ⟨.between, [], args⟩ (joinWith sp (ws.map Word.text) ++ nl :: rest) =
      .inr (args ++ ws.map Word.value, rest) := by
  by_cases hne : ws = []
  · subst hne
    simpa using scan_between_nl [] args rest
  · exact scan_joined hne h args rest

/-! ### No groups -/

/-- Once something stands in the third word, it is never the empty word. -/
def ThirdWord (g : Getline) : Prop :=
  (g.args.length = 2 ∧ g.str ≠ []) ∨ ∃ w, g.args[2]? = some w ∧ w ≠ []

theorem ThirdWord.push {g : Getline} (h : ThirdWord g) : ∃ w, g.finish[2]? = some w ∧ w ≠ [] := by
  rcases h with ⟨hlen, hstr⟩ | ⟨w, hw, hne⟩
  · exact ⟨g.str, by simp [Getline.finish, hlen], hstr⟩
  · have hlt : 2 < g.args.length := (List.getElem?_eq_some_iff.mp hw).1
    exact ⟨w, by rw [Getline.finish, List.getElem?_append_left hlt, hw], hne⟩

/-- One octet keeps `ThirdWord`, or ends the line with two words or a third one that is not
empty. -/
theorem ThirdWord.step {g : Getline} (h : ThirdWord g) (c : Byte) :
    (∃ g', getlineStep g c = .inl g' ∧ ThirdWord g') ∨
      ∃ args, getlineStep g c = .inr args ∧ args[2]? ≠ some [] ∧ 2 ≤ args.length := by
  have hfin : g.finish[2]? ≠ some [] ∧ 2 ≤ g.finish.length := by
    obtain ⟨w, hw, hne⟩ := h.push
    have hlt := (List.getElem?_eq_some_iff.mp hw).1
    exact ⟨by rw [hw]; simpa using hne, by omega⟩
  have hargs : g.args[2]? ≠ some [] ∧ 2 ≤ g.args.length := by
    rcases h with ⟨hlen, -⟩ | ⟨w, hw, hne⟩
    · exact ⟨by simp [hlen], by omega⟩
    · have hlt := (List.getElem?_eq_some_iff.mp hw).1
      exact ⟨by rw [hw]; simpa using hne, by omega⟩
  have hpush : ThirdWord g.push := Or.inr h.push
  have hstay : ∀ s : GetlineState, ThirdWord { g with state := s } := fun _ => h
  have hgrow : ∀ (s : GetlineState) (t : Bytes), t ≠ [] →
      ThirdWord { g with state := s, str := t } :=
    fun _ _ ht => h.imp (fun hh => ⟨hh.1, ht⟩) id
  obtain ⟨state, str, args⟩ := g
  unfold getlineStep
  cases state <;> simp only <;> repeat' split
  all_goals first
    | exact Or.inr ⟨_, rfl, hfin⟩
    | exact Or.inr ⟨_, rfl, hargs⟩
    | exact Or.inl ⟨_, rfl, hpush⟩
    | exact Or.inl ⟨_, rfl, hstay _⟩
    | exact Or.inl ⟨_, rfl, hgrow _ _ (by simp)⟩

theorem ThirdWord.scan {g : Getline} (h : ThirdWord g) {l rest : Bytes} {args : List Bytes}
    (hs : scan getlineStep g l = .inr (args, rest)) : args[2]? ≠ some [] ∧ 2 ≤ args.length := by
  induction l generalizing g with
  | nil => cases hs
  | cons c l ih =>
    rcases h.step c with ⟨g', hg', h'⟩ | ⟨args', ha, hargs⟩
    · rw [scan_cons_inl hg'] at hs
      exact ih h' hs
    · rw [scan_cons_inr ha] at hs
      obtain ⟨rfl, -⟩ := Prod.mk.inj (Sum.inr.inj hs)
      exact hargs

/-- **No groups**: whatever follows the head, the line is never read as one with an empty list of
groups. -/
theorem scan_no_groups {cred : Cred} {cmd : Bytes} (hcmd : BareWord cmd) (hg : cred.groups = [])
    {rest tail : Bytes} {args : List Bytes}
    (h : Lib.scan getlineStep .init (headText true cred cmd ++ rest) = .inr (args, tail)) :
    args[2]? ≠ some [] := by
  have hok : ∀ w ∈ [Word.bare cmd, .bare (fmtD cred.uid)], w.Ok := by
    intro w hw
    simp only [List.mem_cons, List.not_mem_nil, or_false] at hw
    rcases hw with rfl | rfl
    · exact hcmd
    · exact bareWord_fmtD _
  have hhead : headText true cred cmd ++ rest =
      ([Word.bare cmd, .bare (fmtD cred.uid)].flatMap fun w => w.text ++ [sp]) ++
        apos :: sp :: rest := by
    simp [headText, ugidText, hg, Word.text]
  rw [hhead, Getline.init, scan_words hok,
    scan_cons_inl (k := ⟨.quoted, [], [cmd, fmtD cred.uid]⟩) rfl,
    scan_cons_inl (k := ⟨.quoted, [sp], [cmd, fmtD cred.uid]⟩) rfl] at h
  exact (ThirdWord.scan (Or.inl ⟨rfl, by simp⟩) h).1

end Shfs
