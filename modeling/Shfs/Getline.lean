import Shfs.Quote

/-!
# The line decoder of the Perl server

A command is one line of words: bare words, and quoted words as `quoteText` writes them. This
module is the server's end, `getline` of perl-code.in.

* `getlineStep` — one turn of its loop. The automaton has five states; after an escaped quote it
  falls back to the between-words state *in the middle of a word*, still holding the partial
  argument. `scan_quoteText` is the invariant that makes this harmless: a quoted text is always
  followed by a quote, which resumes the same argument.
* `Word` — a word as the kernel side writes it, with the argument it stands for.

`scan_words` says that the automaton turns a sequence of words into their values, one at a time,
and `getline_encode` that a whole line decodes to its words and leaves what follows unread.
-/

namespace Shfs

open Lib

/-- The variable `$state` of `getline`. -/
inductive GetlineState : Type where
  /-- 0: between two words, or after an escaped quote -/
  | between
  /-- 1: in a bare word -/
  | bare
  /-- 2: between single quotes -/
  | quoted
  /-- 3: after a closing quote -/
  | closed
  /-- 4: after a backslash that follows a closing quote -/
  | escaped
  deriving DecidableEq, Repr

/-- The local variables of `getline`: the state, the partial argument `$str` and the arguments
completed so far (`$i` is their number). -/
structure Getline : Type where
  state : GetlineState
  str : Bytes
  args : List Bytes
  deriving DecidableEq, Repr

namespace Getline

/-- Where `getline` starts. -/
def init : Getline := ⟨.between, [], []⟩

/-- `$args[$i++] = $str; $str = ""; $state = 0;` -/
def push (g : Getline) : Getline := ⟨.between, [], g.args ++ [g.str]⟩

/-- `$args[$i] = $str; return @args;` -/
def finish (g : Getline) : List Bytes := g.args ++ [g.str]

end Getline

/-- One turn of the loop of `getline` on the octet `c`: go on, or return the arguments. Octets
that no branch mentions are dropped, as in the source. -/
def getlineStep (g : Getline) (c : Byte) : Getline ⊕ List Bytes :=
  match g.state with
  | .between =>
    if c = nl then .inr g.args
    else if c = apos then .inl { g with state := .quoted }
    else if c ≠ sp then .inl { g with state := .bare, str := [c] }
    else .inl g
  | .bare =>
    if c = nl then .inr g.finish
    else if c = sp then .inl g.push
    else .inl { g with str := g.str ++ [c] }
  | .quoted =>
    if c = apos then .inl { g with state := .closed }
    else .inl { g with str := g.str ++ [c] }
  | .closed =>
    if c = nl then .inr g.finish
    else if c = sp then .inl g.push
    else if c = apos then .inl { g with state := .quoted }
    else if c = bsl then .inl { g with state := .escaped }
    else .inl g
  | .escaped =>
    if c = nl then .inr g.finish
    else if c = sp then .inl g.push
    else if c = apos then .inl { g with str := g.str ++ [c], state := .between }
    else .inl g

/-- What `getline` does with the rest of its standard input. -/
inductive GetlineResult : Type where
  /-- it returns these arguments and leaves these octets unread -/
  | line (args : List Bytes) (rest : Bytes)
  /-- end of input before any argument: `exit(0)` -/
  | exit
  deriving DecidableEq, Repr

/-- `getline` on a standard input that ends after `input`. At the end of input the arguments
completed so far are returned, without the partial one. -/
def getline (input : Bytes) : GetlineResult :=
  match scan getlineStep .init input with
  | .inr (args, rest) => .line args rest
  | .inl g => if g.args = [] then .exit else .line g.args []

/-! ## Arguments -/

/-- Arguments that are complete stay. -/
theorem getlineStep_args (g : Getline) (c : Byte) :
    (∀ g', getlineStep g c = .inl g' → g.args <+: g'.args) ∧
      ∀ args, getlineStep g c = .inr args → g.args <+: args := by
  have hpush : g.args <+: g.push.args := List.prefix_append _ _
  have hfinish : g.args <+: g.finish := List.prefix_append _ _
  have hself : ∀ s str, g.args <+: (⟨s, str, g.args⟩ : Getline).args := fun _ _ => List.prefix_rfl
  constructor
  · rintro g' h
    unfold getlineStep at h
    split at h <;> split_ifs at h <;> cases h <;> first | exact hpush | exact hself _ _
  · rintro args h
    unfold getlineStep at h
    split at h <;> split_ifs at h <;> cases h <;> first | exact hfinish | exact List.prefix_rfl

theorem scan_args_prefix {g : Getline} {bs : Bytes} :
    (∀ g', scan getlineStep g bs = .inl g' → g.args <+: g'.args) ∧
      ∀ args rest, scan getlineStep g bs = .inr (args, rest) → g.args <+: args := by
  induction bs generalizing g with
  | nil => exact ⟨by rintro g' ⟨⟩; exact List.prefix_rfl, by rintro _ _ ⟨⟩⟩
  | cons c bs ih =>
    obtain ⟨hinl, hinr⟩ := getlineStep_args g c
    cases h : getlineStep g c with
    | inl k =>
      rw [scan_cons_inl h]
      exact ⟨fun g' hs => (hinl k h).trans (ih.1 g' hs),
        fun args rest hs => (hinl k h).trans (ih.2 args rest hs)⟩
    | inr args =>
      rw [scan_cons_inr h]
      exact ⟨by rintro g' ⟨⟩, by rintro _ _ ⟨⟩; exact hinr args h⟩

/-- **Octets without a complete argument**, up to any of them: if all of them complete none, then no
part of them does. -/
theorem scan_take_args {g g' : Getline} {bs : Bytes} (h : scan getlineStep g bs = .inl g')
    (hargs : g'.args = g.args) (n : ℕ) :
    ∃ k, scan getlineStep g (bs.take n) = .inl k ∧ k.args = g.args := by
  obtain ⟨k, hk, hrest⟩ := scan_take h n
  have hle := scan_args_prefix.1 k hk
  have hge := scan_args_prefix.1 g' hrest
  rw [hargs] at hge
  exact ⟨k, hk, (hge.eq_of_length_le hle.length_le)⟩

/-! ## Quoted text -/

/-- **Inside a quoted text** the automaton comes back to the quoted state at the end of every
octet's expansion, with that octet appended to the argument: for a quote this takes a turn
through the closed, the escaped and the between-words state. -/
theorem scan_quoteText (s : Bytes) (str : Bytes) (args : List Bytes) (rest : Bytes) :
    scan getlineStep ⟨.quoted, str, args⟩ (quoteText s ++ rest) =
      scan getlineStep ⟨.quoted, str ++ s, args⟩ rest := by
  induction s generalizing str with
  | nil => simp
  | cons c s ih =>
    by_cases hc : c = apos
    · subst hc
      rw [quoteText_cons_apos, List.cons_append, List.cons_append, List.cons_append,
        List.cons_append, scan_cons_inl (k := ⟨.closed, str, args⟩) rfl,
        scan_cons_inl (k := ⟨.escaped, str, args⟩) rfl,
        scan_cons_inl (k := ⟨.between, str ++ [apos], args⟩) rfl,
        scan_cons_inl (k := ⟨.quoted, str ++ [apos], args⟩) rfl, ih (str ++ [apos])]
      simp
    · rw [quoteText_cons_ne hc, List.cons_append, scan_cons_inl (k := ⟨.quoted, str ++ [c], args⟩)
        (by simp [getlineStep, hc]), ih (str ++ [c])]
      simp

/-- Between single quotes, a text without quotes is taken as it is. -/
theorem scan_quoted_self {s : Bytes} (h : apos ∉ s) (str : Bytes) (args : List Bytes)
    (rest : Bytes) :
    scan getlineStep ⟨.quoted, str, args⟩ (s ++ rest) =
      scan getlineStep ⟨.quoted, str ++ s, args⟩ rest := by
  conv_lhs => rw [← quoteText_eq_self h]
  exact scan_quoteText s str args rest

/-! ## Words -/

/-- A bare word: at least one octet, none of them a space, a quote or a line feed. -/
def BareWord (w : Bytes) : Prop := w ≠ [] ∧ ∀ c ∈ w, c ≠ sp ∧ c ≠ apos ∧ c ≠ nl

instance (w : Bytes) : Decidable (BareWord w) :=
  @instDecidableAnd _ _ _ (List.decidableBAll _ w)

/-- A numeral is a bare word. -/
theorem bareWord_numeral {b : ℕ} (h1 : 1 < b) (h10 : b ≤ 10) (n : ℕ) : BareWord (numeral b n) :=
  ⟨numeral_ne_nil b n, fun _ h => have hd := isDigit_of_mem_numeral h1 h10 h
    ⟨ne_of_isDigit hd rfl, ne_of_isDigit hd rfl, ne_of_isDigit hd rfl⟩⟩

theorem bareWord_dec (n : ℕ) : BareWord (dec n) := bareWord_numeral (by omega) (by omega) n

theorem bareWord_oct (n : ℕ) : BareWord (oct n) := bareWord_numeral (by omega) (by omega) n

theorem BareWord.append {v w : Bytes} (hv : BareWord v) (hw : BareWord w) : BareWord (v ++ w) := by
  refine ⟨by simp [hv.1], fun c hc => ?_⟩
  rcases List.mem_append.mp hc with h | h
  · exact hv.2 c h
  · exact hw.2 c h

/-- A word of a command line. -/
inductive Word : Type where
  /-- written as it is -/
  | bare (w : Bytes)
  /-- `'%s'` applied to the expansion of this text -/
  | quoted (s : Bytes)
  deriving DecidableEq, Repr

namespace Word

/-- The octets of the word on the line. -/
def text : Word → Bytes
  | bare w => w
  | quoted s => apos :: quoteText s ++ [apos]

/-- The argument the word stands for. -/
def value : Word → Bytes
  | bare w => w
  | quoted s => s

/-- Bare words must be bare words. -/
def Ok : Word → Prop
  | bare w => BareWord w
  | quoted _ => True

end Word

/-- In a bare word, octets are collected. -/
theorem scan_bare_word {w : Bytes} (h : ∀ c ∈ w, c ≠ sp ∧ c ≠ apos ∧ c ≠ nl) (str : Bytes)
    (args : List Bytes) (rest : Bytes) :
    scan getlineStep ⟨.bare, str, args⟩ (w ++ rest) =
      scan getlineStep ⟨.bare, str ++ w, args⟩ rest := by
  induction w generalizing str with
  | nil => simp
  | cons c w ih =>
    obtain ⟨hsp, hsq, hnl⟩ := h c (List.mem_cons_self ..)
    rw [List.cons_append, scan_cons_inl (k := ⟨.bare, str ++ [c], args⟩)
      (by simp [getlineStep, hnl, hsp]), ih (fun d hd => h d (List.mem_cons_of_mem _ hd))]
    simp

/-- In a quoted word, its text is collected. -/
theorem scan_quoted_word (s : Bytes) (args : List Bytes) (rest : Bytes) :
    scan getlineStep ⟨.between, [], args⟩ ((Word.quoted s).text ++ rest) =
      scan getlineStep ⟨.closed, s, args⟩ rest := by
  rw [Word.text, List.cons_append, List.cons_append,
    scan_cons_inl (k := ⟨.quoted, [], args⟩) rfl, List.append_assoc, scan_quoteText,
    List.singleton_append, List.nil_append, scan_cons_inl (k := ⟨.closed, s, args⟩) rfl]

/-- A word leaves the automaton in a state where a space or a line feed completes it. -/
theorem scan_word {w : Word} (h : w.Ok) (args : List Bytes) : ∃ g : Getline,
    (∀ rest, scan getlineStep ⟨.between, [], args⟩ (w.text ++ rest) = scan getlineStep g rest) ∧
      getlineStep g sp = .inl ⟨.between, [], args ++ [w.value]⟩ ∧
      getlineStep g nl = .inr (args ++ [w.value]) := by
  cases w with
  | bare w =>
    obtain ⟨c, w, rfl⟩ := List.exists_cons_of_ne_nil h.1
    obtain ⟨hsp, hsq, hnl⟩ := h.2 c (List.mem_cons_self ..)
    refine ⟨⟨.bare, c :: w, args⟩, fun rest => ?_, rfl, rfl⟩
    rw [Word.text, List.cons_append, scan_cons_inl (k := ⟨.bare, [c], args⟩)
      (by simp [getlineStep, hnl, hsq, hsp])]
    exact scan_bare_word (fun d hd => h.2 d (List.mem_cons_of_mem _ hd)) [c] args rest
  | quoted s =>
    exact ⟨⟨.closed, s, args⟩, fun rest => scan_quoted_word s args rest, rfl, rfl⟩

/-- **Words are taken one at a time**: each word followed by a space adds its value to the
arguments and brings the automaton back to where it was. -/
theorem scan_words {ws : List Word} (h : ∀ w ∈ ws, w.Ok) (args : List Bytes) (rest : Bytes) :
    scan getlineStep ⟨.between, [], args⟩ ((ws.flatMap fun w => w.text ++ [sp]) ++ rest) =
      scan getlineStep ⟨.between, [], args ++ ws.map Word.value⟩ rest := by
  induction ws generalizing args with
  | nil => simp
  | cons w ws ih =>
    obtain ⟨g, hg, hsp, -⟩ := scan_word (h w (List.mem_cons_self ..)) args
    rw [List.flatMap_cons, List.append_assoc, List.append_assoc, hg, List.singleton_append,
      scan_cons_inl hsp, ih (fun v hv => h v (List.mem_cons_of_mem _ hv))]
    simp

/-- The last word of a line, ended by the line feed. -/
theorem scan_last_word {w : Word} (h : w.Ok) (args : List Bytes) (rest : Bytes) :
    scan getlineStep ⟨.between, [], args⟩ (w.text ++ nl :: rest) =
      .inr (args ++ [w.value], rest) := by
  obtain ⟨g, hg, -, hnl⟩ := scan_word h args
  rw [hg, scan_cons_inr hnl]

/-- A line feed between two words ends the line. -/
theorem scan_between_nl (str : Bytes) (args : List Bytes) (rest : Bytes) :
    scan getlineStep ⟨.between, str, args⟩ (nl :: rest) = .inr (args, rest) :=
  scan_cons_inr rfl rest

/-- The words of a non-empty line, with single spaces between them. -/
theorem scan_joined {ws : List Word} (hne : ws ≠ []) (h : ∀ w ∈ ws, w.Ok) (args : List Bytes)
    (rest : Bytes) :
    scan getlineStep ⟨.between, [], args⟩ (joinWith sp (ws.map Word.text) ++ nl :: rest) =
      .inr (args ++ ws.map Word.value, rest) := by
  induction ws generalizing args with
  | nil => exact absurd rfl hne
  | cons w ws ih =>
    have hw := h w (List.mem_cons_self ..)
    cases ws with
    | nil =>
      rw [List.map_cons, List.map_nil, joinWith_singleton, scan_last_word hw]
      rfl
    | cons v vs =>
      obtain ⟨g, hg, hsp, -⟩ := scan_word hw args
      have := ih (by simp) (fun u hu => h u (List.mem_cons_of_mem _ hu)) (args ++ [w.value])
      rw [List.map_cons, List.map_cons, joinWith_cons_cons, List.append_assoc, hg,
        List.cons_append, scan_cons_inl hsp, ← List.map_cons, this]
      simp

/-! ## A whole line -/

/-- A command word followed by quoted arguments: the first word bare, each further argument as a
quote, its expansion and a quote, single spaces between them and a line feed at the end. -/
def encodeLine (cmd : Bytes) (args : List Bytes) : Bytes :=
  joinWith sp (cmd :: args.map fun a => apos :: quoteText a ++ [apos]) ++ [nl]

/-- **Decoding inverts quoting**: whatever octets the arguments are made of and whatever follows
the line, `getline` returns exactly the arguments and leaves exactly what follows. -/
theorem getline_encode {cmd : Bytes} (hcmd : BareWord cmd) (args : List Bytes) (rest : Bytes) :
    getline (encodeLine cmd args ++ rest) = .line (cmd :: args) rest := by
  have hline : encodeLine cmd args ++ rest =
      joinWith sp ((Word.bare cmd :: args.map Word.quoted).map Word.text) ++ nl :: rest := by
    simp [encodeLine, Word.text, Function.comp_def]
  have hok : ∀ w ∈ Word.bare cmd :: args.map Word.quoted, w.Ok := by
    intro w hw
    rcases List.mem_cons.mp hw with rfl | hw
    · exact hcmd
    · obtain ⟨a, -, rfl⟩ := List.mem_map.mp hw
      trivial
  rw [getline, hline, Getline.init, scan_joined (by simp) hok]
  simp [Word.value, Function.comp_def]

/-- `s_mv` of a name with a quote to an empty one, followed by the start of another line. -/
theorem getline_encode_mv :
    BareWord (ascii "s_mv") ∧
      getline (encodeLine (ascii "s_mv") [ascii "it's", []] ++ ascii "s_p") =
        .line [ascii "s_mv", ascii "it's", []] (ascii "s_p") :=
  ⟨by decide, getline_encode (by decide) _ _⟩

end Shfs
