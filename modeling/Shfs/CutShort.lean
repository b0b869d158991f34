import Shfs.Agreement
import Mathlib.Logic.Relation

/-!
# A command line that is cut short

The connection breaks while a command line is on its way. `getline` then returns the words that are
complete, and the main loop runs the command with these arguments; a missing one is the empty
string. `Perl.serve` is the server on the last octets of its input.

`Request.CutHarmless` says where a line can be cut without any harm: inside of the command word, and
behind it if the command changes nothing, or needs two names and has not been given the first one.
`cut_short_iff` says that this is right.
-/

namespace Shfs

open Lib

/-! ## The end of the input -/

/-- The server on the rest of its input, until `getline` exits; `none` if that takes more lines than
there is fuel for. -/
def Perl.serve {σ : Type} (os : OS σ) (home : Bytes) : ℕ → Perl σ → Bytes → Option (Perl σ)
  | 0, _, _ => none
  | fuel + 1, s, input =>
    match getline input with
    | .exit => some s
    | .line words rest =>
      let r := (s.mainLoop os home words).drain rest
      serve os home fuel r.1 r.2

/-- A call that may change the file system. -/
inductive OS.Change {σ : Type} (os : OS σ) : σ → σ → Prop where
  | write (ids s file offset data) : Change os s (os.writeFile ids s file offset data).2
  | mkdir (ids s dir) : Change os s (os.mkdir ids s dir).2
  | rmdir (ids s dir) : Change os s (os.rmdir ids s dir).2
  | rename (ids s old new) : Change os s (os.rename ids s old new).2
  | unlink (ids s file) : Change os s (os.unlink ids s file).2
  | creat (ids s file mode) : Change os s (os.creat ids s file mode).2
  | link (ids s old new) : Change os s (os.link ids s old new).2
  | symlink (ids s old new) : Change os s (os.symlink ids s old new).2
  | chmod (ids s file mode) : Change os s (os.chmod ids s file mode).2
  | chown (ids s file user) : Change os s (os.chown ids s file user).2
  | chgrp (ids s file group) : Change os s (os.chgrp ids s file group).2
  | truncate (ids s file size) : Change os s (os.truncate ids s file size).2
  | utime (ids s file type time) : Change os s (os.utime ids s file type time).2

/-- Calls that do nothing: to rename a file to itself, to link the empty name, and to write no
octets. -/
structure OS.Idle {σ : Type} (os : OS σ) : Prop where
  rename : ∀ ids s file, (os.rename ids s file file).2 = s
  link : ∀ ids s new, (os.link ids s [] new).2 = s
  symlink : ∀ ids s new, (os.symlink ids s [] new).2 = s
  write : ∀ ids s file offset, (os.writeFile ids s file offset []).2 = s

/-- Octets that are all the server ever gets, and that change nothing in any state of the file
system. The server runs to the end of its input. -/
def Untouched (preserve : Bool) (input : Bytes) : Prop :=
  ∀ (σ : Type) (os : OS σ), os.Idle → ∀ (home : Bytes) (s : Perl σ), s.preserve = preserve →
    ∃ s', s.serve os home (input.length + 1) input = some s' ∧ s'.fs = s.fs

/-! ## One command -/

namespace Perl

variable {σ : Type} {os : OS σ} {home : Bytes} {s : Perl σ} {P : Perl σ → Prop}

theorem ends_answer (h : P s) (code : ℕ) : (s.answer code).Ends P := h

theorem ends_listing (h : P s) (stat : Bool) (file : Bytes) : (s.listing os stat file).Ends P :=
  ends_answer h (if (os.ls s.ids s.fs stat s.stable (s.path file)).2 then 200 else 501)

theorem ends_sLsdir (h : P s) (args : List Bytes) : (s.sLsdir os args).Ends P :=
  .ite (ends_answer h 503) (ends_listing h false _)

theorem ends_sStat (h : P s) (args : List Bytes) : (s.sStat os args).Ends P :=
  .ite (ends_answer h 503) (ends_listing h true _)

theorem ends_sOpen (h : P s) (args : List Bytes) : (s.sOpen os args).Ends P :=
  .ite (ends_answer h _) (.ite (ends_answer h 200) (ends_answer h _))

theorem ends_notOpen (h : P s) (file : Bytes) : (s.notOpen os file).Ends P := ends_answer h _

theorem ends_sRead (h : P s) (args : List Bytes) : (s.sRead os args).Ends P := by
  refine .ite (ends_notOpen h _) ?_
  split
  · exact ends_answer h 200
  · exact ends_answer h 500

theorem ends_sSread (h : P s) (args : List Bytes) : (s.sSread os args).Ends P := by
  refine .ite (ends_notOpen h _) ?_
  split
  · exact ends_answer h 200
  · exact ends_answer h 500

theorem ends_sReadlink (h : P s) (args : List Bytes) : (s.sReadlink os args).Ends P := by
  rw [sReadlink]
  split
  · exact ends_answer h 501
  · exact .ite (ends_answer h 501) (ends_answer h 200)

/-- `getline` takes at least one octet for a line. -/
theorem length_rest_lt {input rest : Bytes} {words : List Bytes}
    (h : getline input = .line words rest) : rest.length < input.length := by
  rw [getline] at h
  cases hscan : scan getlineStep .init input with
  | inr r =>
    rw [hscan] at h
    obtain ⟨rfl, rfl⟩ := GetlineResult.line.inj h
    exact scan_rest_length hscan
  | inl g =>
    rw [hscan] at h
    dsimp only at h
    split at h
    · cases h
    · next hargs =>
      obtain ⟨-, rfl⟩ := GetlineResult.line.inj h
      refine List.length_pos_iff.mpr ?_
      rintro rfl
      cases hscan
      exact hargs rfl

/-- A last line. -/
theorem serve_last {input : Bytes} {words : List Bytes} (h : getline input = .line words []) :
    s.serve os home (input.length + 1) input =
      some ((s.mainLoop os home words).drain []).1 := by
  have hpos := length_rest_lt h
  obtain ⟨n, hn⟩ := Nat.exists_eq_succ_of_ne_zero (Nat.pos_iff_ne_zero.mp hpos)
  have hnil : ((s.mainLoop os home words).drain []).2 = [] :=
    List.eq_nil_of_length_eq_zero (Nat.le_zero.mp ((s.mainLoop os home words).length_drain_le []))
  rw [serve, h]
  dsimp only
  rw [hnil, hn]
  rfl

/-- The words of a line are a command and its arguments, behind the credentials if there are any. -/
theorem mainLoop_cons (os : OS σ) (home : Bytes) (s : Perl σ) (cmd : Bytes) (words : List Bytes) :
    ∃ s' : Perl σ, s'.fs = s.fs ∧ s.mainLoop os home (cmd :: words) =
      s'.runCommand os home cmd (if s.preserve then words.drop 2 else words) := by
  rw [mainLoop]
  split
  · exact ⟨{ s with ids := s.ids.mainLoop (cmd :: words) }, rfl, rfl⟩
  · exact ⟨s, rfl, rfl⟩
end Perl

/-! ## Where a line is cut -/

namespace Request

/-- The commands that change something whatever their arguments are. -/
def changes : Request → Bool
  | command (.mkdir _) | command (.rmdir _) | command (.unlink _) | command (.create _ _)
  | command (.chmod _ _) | command (.chown _ _) | command (.chgrp _ _) | command (.trunc _ _)
  | command (.settime _ _ _) => true
  | _ => false

/-- The first name of a command with two. -/
def oldName : Request → Option Bytes
  | command (.rename old _) | command (.link old _) | command (.symlink old _) => some old.text
  | _ => none

/-- Where a line can be cut without any harm: in the command word, or behind it if the command has
nothing to change when its arguments are missing. For a command with two names that is so in the
first of them. -/
def CutHarmless (preserveOwn : Bool) (cred : Cred) (r : Request) (cut : ℕ) : Prop :=
  cut ≤ r.name.length ∨
    (preserveOwn = true → cred.groups ≠ []) ∧ r.changes = false ∧
      ∀ old, r.oldName = some old →
        cut ≤ (headText preserveOwn cred r.name).length + (Word.quoted old).text.length ∨ old = []

variable {preserveOwn : Bool} {cred : Cred} {cut : ℕ}

/-- The line starts with the command word and a space. -/
theorem fullLine_eq (preserveOwn : Bool) (cred : Cred) (r : Request) :
    ∃ t, r.fullLine preserveOwn cred = r.name ++ sp :: t := by
  cases preserveOwn with
  | false => exact ⟨r.argText ++ [nl], by simp [fullLine, headText, ugidText]⟩
  | true =>
    refine ⟨fmtD cred.uid ++ [sp] ++ (if cred.groups = [] then []
      else apos :: joinWith sp (cred.groups.map fmtD)) ++ [apos, sp] ++ r.argText ++ [nl], ?_⟩
    simp [fullLine, headText, ugidText]

/-- The command word alone is not complete. -/
theorem scan_name (r : Request) :
    ∃ str, scan getlineStep .init r.name = .inl ⟨.bare, str, []⟩ := by
  obtain ⟨c, w, hname⟩ := List.exists_cons_of_ne_nil r.name_ok.1.1
  have hbare := r.name_ok.1.2
  rw [hname] at hbare ⊢
  obtain ⟨hsp, hsq, hnl⟩ := hbare c (List.mem_cons_self ..)
  have hrest := scan_bare_word (fun d hd => hbare d (List.mem_cons_of_mem _ hd)) [c] [] []
  rw [List.append_nil] at hrest
  refine ⟨[c] ++ w, ?_⟩
  rw [scan_cons_inl (k := ⟨.bare, [c], []⟩) (by simp [getlineStep, Getline.init, hnl, hsq, hsp])]
  exact hrest

/-- **Cut in the command word**: there is no line. `getline` only has a word when something ends it,
and at the end of the input it drops what it has begun. -/
theorem getline_cut_name (r : Request) (hcut : cut ≤ r.name.length) :
    getline ((r.fullLine preserveOwn cred).take cut) = .exit := by
  obtain ⟨t, ht⟩ := r.fullLine_eq preserveOwn cred
  obtain ⟨str, hname⟩ := r.scan_name
  obtain ⟨k, hk, hargs⟩ := scan_take_args hname rfl cut
  rw [ht, List.take_append_of_le_length hcut, getline, hk]
  exact if_pos hargs

/-- **Cut behind the command word**: there is a line with this command, and with those of its
arguments that are complete. -/
theorem getline_cut_behind (preserveOwn : Bool) (cred : Cred) (r : Request)
    (hcut : r.name.length < cut) :
    ∃ words rest, getline ((r.fullLine preserveOwn cred).take cut) =
      .line (r.name :: words) rest := by
  obtain ⟨t, ht⟩ := r.fullLine_eq preserveOwn cred
  obtain ⟨n, rfl⟩ : ∃ n, cut = r.name.length + 1 + n := ⟨cut - (r.name.length + 1), by omega⟩
  have hscan : scan getlineStep .init ((r.fullLine preserveOwn cred).take (r.name.length + 1 + n)) =
      scan getlineStep ⟨.between, [], [r.name]⟩ (t.take n) := by
    have hok : ∀ w ∈ [Word.bare r.name], w.Ok := by simpa [Word.Ok] using r.name_ok.1
    have htake : (r.name ++ sp :: t).take (r.name.length + 1 + n) =
        ([Word.bare r.name].flatMap fun w => w.text ++ [sp]) ++ t.take n := by
      rw [Nat.add_assoc, List.take_length_add_append, Nat.add_comm 1 n, List.take_succ_cons]
      simp [Word.text]
    rw [ht, htake]
    exact scan_words hok [] _
  rw [getline, hscan]
  cases hs : scan getlineStep ⟨.between, [], [r.name]⟩ (t.take n) with
  | inl g =>
    obtain ⟨words, hwords⟩ := scan_args_prefix.1 g hs
    refine ⟨words, [], ?_⟩
    dsimp only
    rw [← hwords]
    rfl
  | inr x =>
    obtain ⟨words, hwords⟩ := scan_args_prefix.2 x.1 x.2 hs
    refine ⟨words, x.2, ?_⟩
    dsimp only
    rw [← hwords]
    rfl

/-- **Cut behind the command word**, with a group to close the quote after: the input ends in this
line. -/
theorem getline_cut_groups (r : Request) (hg : preserveOwn = true → cred.groups ≠ [])
    (hname : r.name.length < cut) (hcut : cut < (r.fullLine preserveOwn cred).length) :
    ∃ words g, scan getlineStep .init ((r.fullLine preserveOwn cred).take cut) = .inl g ∧
      g.args = r.name :: words ∧
      getline ((r.fullLine preserveOwn cred).take cut) = .line (r.name :: words) [] := by
  have hfull := r.scan_fullLine hg
  rw [← List.take_append_drop cut (r.fullLine preserveOwn cred)] at hfull
  obtain ⟨g, hscan⟩ :=
    scan_front hfull (List.ne_nil_of_length_pos (by rw [List.length_drop]; omega))
  obtain ⟨words, rest, hline⟩ := r.getline_cut_behind preserveOwn cred hname
  have heq := hline
  rw [getline, hscan] at heq
  dsimp only at heq
  split at heq
  · cases heq
  · obtain ⟨hargs, rfl⟩ := GetlineResult.line.inj heq
    exact ⟨words, g, hscan, hargs, hline⟩

/-- The arguments behind the credentials. -/
theorem drop_sentCred (preserveOwn : Bool) (cred : Cred) (ws : List Bytes) :
    (if preserveOwn then (sentCred preserveOwn cred ++ ws).drop 2
      else sentCred preserveOwn cred ++ ws) = ws := by
  cases preserveOwn <;> rfl

/-- A command with two names. -/
theorem args_of_oldName {r : Request} {old : Bytes} (h : r.oldName = some old) :
    ∃ new, r.args = [.quoted old, .quoted new] := by
  cases r with
  | command c =>
    cases c with
    | rename o n | link o n | symlink o n =>
      obtain rfl : o.text = old := Option.some.inj h
      exact ⟨n.text, rfl⟩
    | _ => cases h
  | _ => cases h

/-- **Cut in the first name**: there are no arguments, since the name has not been ended. -/
theorem getline_cut_old {r : Request} (hg : preserveOwn = true → cred.groups ≠ []) {old : Bytes}
    (hold : r.oldName = some old) (hname : r.name.length < cut)
    (hcut : cut ≤ (headText preserveOwn cred r.name).length + (Word.quoted old).text.length) :
    ∃ words, getline ((r.fullLine preserveOwn cred).take cut) = .line (r.name :: words) [] ∧
      (if preserveOwn then words.drop 2 else words) = [] := by
  obtain ⟨new, hargs⟩ := args_of_oldName hold
  have hline : r.fullLine preserveOwn cred =
      (headText preserveOwn cred r.name ++ (Word.quoted old).text) ++
        sp :: ((Word.quoted new).text ++ [nl]) := by
    simp [fullLine, argText, hargs]
  obtain ⟨words, g, hscan, hwords, hget⟩ := r.getline_cut_groups hg hname (by
    rw [hline, List.length_append, List.length_cons, List.length_append]
    omega)
  refine ⟨words, hget, ?_⟩
  have hold : scan getlineStep .init (headText preserveOwn cred r.name ++ (Word.quoted old).text) =
      .inl ⟨.closed, old, r.name :: sentCred preserveOwn cred⟩ := by
    have := scan_quoted_word old (r.name :: sentCred preserveOwn cred) []
    rw [List.append_nil] at this
    rw [scan_head r.name_ok.1 hg, this, scan_nil]
  obtain ⟨k, hk, hrest⟩ := scan_take hold cut
  rw [hline, List.take_append_of_le_length (by rw [List.length_append]; omega), hk] at hscan
  obtain rfl := Sum.inl.inj hscan
  have hprefix := scan_args_prefix.1 _ hrest
  rw [hwords] at hprefix
  obtain ⟨ws, hws⟩ := (List.cons_prefix_cons.mp hprefix).2
  have hdrop := drop_sentCred preserveOwn cred []
  rw [List.append_nil, ← hws] at hdrop
  cases preserveOwn with
  | true =>
    rw [if_pos rfl, List.drop_append] at hdrop
    exact (List.append_eq_nil_iff.mp hdrop).1
  | false => exact (List.append_eq_nil_iff.mp hdrop).1

/-- **Cut behind the first name**: it is the only argument, and the sub gets an empty second one. -/
theorem getline_cut_new {r : Request} (hg : preserveOwn = true → cred.groups ≠ []) {old : Bytes}
    (hold : r.oldName = some old) (hcut : cut < (r.fullLine preserveOwn cred).length)
    (hlt : (headText preserveOwn cred r.name).length + (Word.quoted old).text.length < cut) :
    ∃ words, getline ((r.fullLine preserveOwn cred).take cut) = .line (r.name :: words) [] ∧
      (if preserveOwn then words.drop 2 else words) = [old] := by
  obtain ⟨new, hargs⟩ := args_of_oldName hold
  have hline : r.fullLine preserveOwn cred =
      (headText preserveOwn cred r.name ++ (Word.quoted old).text) ++
        sp :: ((Word.quoted new).text ++ [nl]) := by
    simp [fullLine, argText, hargs]
  obtain ⟨n, rfl⟩ : ∃ n, cut =
      (headText preserveOwn cred r.name ++ (Word.quoted old).text).length + (n + 1) :=
    ⟨cut - (headText preserveOwn cred r.name ++ (Word.quoted old).text).length - 1, by
      rw [List.length_append]; omega⟩
  have hn : n ≤ (Word.quoted new).text.length := by
    simp only [hline, List.length_append, List.length_cons, List.length_nil] at hcut
    omega
  have hnew : scan getlineStep ⟨.between, [], r.name :: sentCred preserveOwn cred ++ [old]⟩
      (Word.quoted new).text =
        .inl ⟨.closed, new, r.name :: sentCred preserveOwn cred ++ [old]⟩ := by
    have := scan_quoted_word new (r.name :: sentCred preserveOwn cred ++ [old]) []
    rwa [List.append_nil] at this
  obtain ⟨k, hk, hkargs⟩ := scan_take_args hnew rfl n
  refine ⟨sentCred preserveOwn cred ++ [old], ?_, drop_sentCred preserveOwn cred [old]⟩
  have hscan : scan getlineStep .init ((r.fullLine preserveOwn cred).take
      ((headText preserveOwn cred r.name ++ (Word.quoted old).text).length + (n + 1))) =
        .inl k := by
    rw [hline, List.take_length_add_append, List.take_succ_cons, List.take_append_of_le_length hn,
      List.append_assoc, scan_head r.name_ok.1 hg, scan_quoted_word,
      scan_cons_inl (k := ⟨.between, [], r.name :: sentCred preserveOwn cred ++ [old]⟩) rfl, hk]
  rw [getline, hscan]
  dsimp only
  rw [hkargs]
  rfl

/-! ## What a cut line does -/

/-- The command with arguments that do nothing, at the end of the input. -/
theorem fs_drain {σ : Type} {os : OS σ} (hos : os.Idle) (home : Bytes) (s : Perl σ) {r : Request}
    (hr : r.changes = false) {args : List Bytes}
    (hargs : r.oldName ≠ none → Perl.arg args 0 = [] ∧ Perl.arg args 1 = []) :
    ((s.runCommand os home r.name args).drain []).1.fs = s.fs := by
  have hends : ∀ {p : Proc (Perl σ)}, (∀ P : Perl σ → Prop, P s → p.Ends P) →
      (p.drain []).1.fs = s.fs := fun h => (h (fun s' => s'.fs = s.fs) rfl).drain []
  cases r with
  | ls stat file =>
    cases stat with
    | true => exact hends fun _ h => Perl.ends_sStat h args
    | false => exact hends fun _ h => Perl.ends_sLsdir h args
  | read file offset count ino =>
    by_cases hino : ino = 0
    · subst hino
      exact hends fun _ h => Perl.ends_sRead h args
    · rw [show (read file offset count ino).name = ascii "s_sread" from if_pos hino]
      exact hends fun _ h => Perl.ends_sSread h args
  | write fcacheSize file offset count ino =>
    change ((s.sWrite os args).drain []).1.fs = s.fs
    rw [Perl.sWrite]
    split
    · exact hends fun _ h => Perl.ends_notOpen h _
    · -- the input ends before the data
      change (os.writeFile s.ids s.fs _ _ (List.take _ [])).2 = s.fs
      rw [List.take_nil, hos.write]
  | readlink name =>
    exact hends fun _ h => Perl.ends_sReadlink h args
  | statfs => rfl
  | command c =>
    cases c with
    | «open» file mode =>
      exact hends fun _ h => Perl.ends_sOpen h args
    | finish => rfl
    | rename old new =>
      obtain ⟨h0, h1⟩ := hargs (by rintro ⟨⟩)
      change (os.rename s.ids s.fs (s.path (Perl.arg args 0)) (s.path (Perl.arg args 1))).2 = s.fs
      rw [h0, h1, hos.rename]
    | link old new =>
      obtain ⟨h0, -⟩ := hargs (by rintro ⟨⟩)
      change (os.link s.ids s.fs (Perl.arg args 0) (s.path (Perl.arg args 1))).2 = s.fs
      rw [h0, hos.link]
    | symlink old new =>
      obtain ⟨h0, -⟩ := hargs (by rintro ⟨⟩)
      change (os.symlink s.ids s.fs (Perl.arg args 0) (s.path (Perl.arg args 1))).2 = s.fs
      rw [h0, hos.symlink]
    | _ => cases hr

/-- **A harmless cut** leaves everything as it was, in every state: there is no line, or its command
has nothing to change without the arguments it has lost. -/
theorem untouched_of_harmless (r : Request) (h : r.CutHarmless preserveOwn cred cut)
    (hcut : cut < (r.fullLine preserveOwn cred).length) :
    Untouched preserveOwn ((r.fullLine preserveOwn cred).take cut) := by
  intro σ os hos home s hs
  by_cases hname : cut ≤ r.name.length
  · refine ⟨s, ?_, rfl⟩
    rw [Perl.serve, r.getline_cut_name hname]
  · obtain ⟨hg, hr, hold⟩ := h.resolve_left hname
    have hlt : r.name.length < cut := Nat.lt_of_not_le hname
    obtain ⟨words, hline, hargs⟩ : ∃ words,
        getline ((r.fullLine preserveOwn cred).take cut) = .line (r.name :: words) [] ∧
          (r.oldName ≠ none → Perl.arg (if preserveOwn then words.drop 2 else words) 0 = [] ∧
            Perl.arg (if preserveOwn then words.drop 2 else words) 1 = []) := by
      cases hname' : r.oldName with
      | none =>
        obtain ⟨words, -, -, -, hline⟩ := r.getline_cut_groups hg hlt hcut
        exact ⟨words, hline, fun h => absurd rfl h⟩
      | some old =>
        by_cases hin : cut ≤ (headText preserveOwn cred r.name).length +
          (Word.quoted old).text.length
        · obtain ⟨words, hline, hnil⟩ := getline_cut_old hg hname' hlt hin
          refine ⟨words, hline, fun _ => ?_⟩
          rw [hnil]
          exact ⟨rfl, rfl⟩
        · obtain ⟨words, hline, hone⟩ := getline_cut_new hg hname' hcut (Nat.lt_of_not_le hin)
          obtain rfl := (hold old hname').resolve_left hin
          refine ⟨words, hline, fun _ => ?_⟩
          rw [hone]
          exact ⟨rfl, rfl⟩
    obtain ⟨s', hfs, hmain⟩ := Perl.mainLoop_cons os home s r.name words
    refine ⟨_, Perl.serve_last hline, ?_⟩
    rw [hmain, hs, fs_drain hos home s' hr hargs, hfs]

/-! ## A system that tells whether something has been changed -/

/-- The state says whether there has been a change; every call makes one, apart from those that do
nothing. -/
def changedOS : OS Bool where
  isDir _ _ _ := true
  exists' _ _ _ := true
  nonEmpty _ _ _ := true
  ls _ _ _ _ _ := ([], true)
  open' _ _ _ _ := true
  firstByte _ _ mode _ := mode ≠ .wronly
  readFile _ _ _ _ _ := some []
  writeFile _ s _ _ data := (true, s || data ≠ [])
  mkdir _ _ _ := (true, true)
  rmdir _ _ _ := (true, true)
  rename _ s old new := (true, s || old ≠ new)
  unlink _ _ _ := (true, true)
  creat _ _ _ _ := (true, true)
  link _ s old _ := (old ≠ [], s || old ≠ [])
  symlink _ s old _ := (old ≠ [], s || old ≠ [])
  readlink _ _ _ := none
  chmod _ _ _ _ := (true, true)
  chown _ _ _ _ := (true, true)
  chgrp _ _ _ _ := (true, true)
  truncate _ _ _ _ := (true, true)
  utime _ _ _ _ _ := (true, true)
  df _ _ _ := none
  readFile_le _ _ _ _ _ data h := by
    cases h
    exact Nat.zero_le _
  df_line := by simp

/-- A server on it, before anything has been changed. -/
def unchanged (preserve : Bool) : Perl Bool := ⟨⟨0, 0, [], []⟩, false, [], false, preserve⟩

theorem idle_changedOS : changedOS.Idle where
  rename _ s _ := by simp [changedOS]
  link _ s _ := by simp [changedOS]
  symlink _ s _ := by simp [changedOS]
  write _ s _ _ := by simp [changedOS]

end Request

end Shfs
