import Shfs.Lib.Bytes
import Shfs.Lib.Scan

/-!
# The words of a shell line

How a POSIX shell takes a line apart, for the lines that are one simple command without expansions:
words with blanks between them, where an octet stands for itself (`Sh.Literal`), or is between
single quotes, or has a backslash in front of it. Everything else that a line may be (a variable, a
redirection, a pipeline, a comment, a reserved word, an assignment) ends in `beyond`, about which
nothing is said. So a line that `Sh.step` answers with some words is a command with just these
words, and nothing in it is expanded or executed.

`Sh.Piece` is a piece of a word as it is written. A word is read from its pieces (`Sh.scan_pieces`),
and a line from its words (`Sh.scan_words`), whatever is behind it.
-/

namespace Lib.Sh

/-- Where the shell is in a line. -/
inductive Place : Type where
  | blank
  | word
  /-- between single quotes -/
  | quoted
  /-- behind a backslash -/
  | escaped
  /-- not a command of literal words -/
  | beyond
  deriving DecidableEq, Repr

/-- The word that is being read, and those in front of it. -/
structure Line : Type where
  place : Place
  word : Bytes
  words : List Bytes
  deriving DecidableEq, Repr

/-- Where a line begins. -/
def Line.init : Line := ⟨.blank, [], []⟩

/-- An octet that stands for itself in any place: a letter, a digit, or one of `_`, `.` and `-`. -/
def Literal (b : Byte) : Prop :=
  (65 ≤ b ∧ b ≤ 90) ∨ (97 ≤ b ∧ b ≤ 122) ∨ (48 ≤ b ∧ b ≤ 57) ∨ b = 95 ∨ b = 46 ∨ b = 45

instance (b : Byte) : Decidable (Literal b) :=
  inferInstanceAs (Decidable (_ ∨ _ ∨ _ ∨ _ ∨ _ ∨ _))

/-- The words that are no command in front of a line. -/
def reserved : List Bytes :=
  ["case", "do", "done", "elif", "else", "esac", "fi", "for", "function", "if", "in", "select",
    "then", "time", "until", "while"].map ascii

/-- The end of a line with these words. An empty line is no command. -/
def Line.finish (words : List Bytes) : Line ⊕ List Bytes :=
  match words with
  | [] => .inl .init
  | name :: _ => if name ∈ reserved then .inl ⟨.beyond, [], words⟩ else .inr words

/-- The octet `b` of a line: more to come, or the words of the command. -/
def step (l : Line) (b : Byte) : Line ⊕ List Bytes :=
  match l.place with
  | .blank =>
    if b = nl then Line.finish l.words
    else if b = sp ∨ b = 9 then .inl l
    else if b = apos then .inl { l with place := .quoted }
    else if b = bsl then .inl { l with place := .escaped }
    else if Literal b then .inl { l with place := .word, word := [b] }
    else .inl { l with place := .beyond }
  | .word =>
    if b = nl then Line.finish (l.words ++ [l.word])
    else if b = sp ∨ b = 9 then .inl ⟨.blank, [], l.words ++ [l.word]⟩
    else if b = apos then .inl { l with place := .quoted }
    else if b = bsl then .inl { l with place := .escaped }
    else if Literal b then .inl { l with word := l.word ++ [b] }
    else .inl { l with place := .beyond }
  | .quoted =>
    if b = apos then .inl { l with place := .word }
    else .inl { l with word := l.word ++ [b] }
  | .escaped =>
    if b = nl then .inl { l with place := .beyond } -- the line goes on
    else .inl { l with place := .word, word := l.word ++ [b] }
  | .beyond => .inl l

/-! ## Pieces of a word -/

/-- A piece of a word, as it is written. -/
inductive Piece : Type where
  | literal (w : Bytes)
  | quoted (s : Bytes)
  | escaped (b : Byte)

/-- The octets on the line. -/
def Piece.text : Piece → Bytes
  | literal w => w
  | quoted s => apos :: s ++ [apos]
  | escaped b => [bsl, b]

/-- What they stand for. -/
def Piece.value : Piece → Bytes
  | literal w | quoted w => w
  | escaped b => [b]

/-- A piece that is well formed. -/
def Piece.Ok : Piece → Prop
  | literal w => w ≠ [] ∧ ∀ b ∈ w, Literal b
  | quoted s => apos ∉ s
  | escaped b => b ≠ nl

/-- The text of a word. -/
def text (ps : List Piece) : Bytes := ps.flatMap Piece.text

/-- The word. -/
def value (ps : List Piece) : Bytes := ps.flatMap Piece.value

variable {ps : List Piece} {word : Bytes} {words : List Bytes} {rest : Bytes}

theorem Literal.ne {b : Byte} (h : Literal b) : b ≠ nl ∧ ¬ (b = sp ∨ b = 9) ∧ b ≠ apos ∧
    b ≠ bsl := by
  refine ⟨?_, ?_, ?_, ?_⟩
  · rintro rfl
    exact absurd h (by decide)
  · rintro (rfl | rfl) <;> exact absurd h (by decide)
  · rintro rfl
    exact absurd h (by decide)
  · rintro rfl
    exact absurd h (by decide)

theorem literal_of_all {w : Bytes} (h : w.all (fun b => decide (Literal b)) = true) :
    ∀ b ∈ w, Literal b := fun b hb => of_decide_eq_true (List.all_eq_true.mp h b hb)

/-- In a word, literal octets are collected. -/
theorem scan_literal {w : Bytes} (h : ∀ b ∈ w, Literal b) :
    scan step ⟨.word, word, words⟩ (w ++ rest) = scan step ⟨.word, word ++ w, words⟩ rest := by
  induction w generalizing word with
  | nil => rw [List.nil_append, List.append_nil]
  | cons b w ih =>
    obtain ⟨hnl, hblank, hapos, hbsl⟩ := (h b (List.mem_cons_self ..)).ne
    have hstep : step ⟨.word, word, words⟩ b = .inl ⟨.word, word ++ [b], words⟩ := by
      simp only [step, hnl, hblank, hapos, hbsl, h b (List.mem_cons_self ..), if_true, if_false]
    rw [List.cons_append, scan_cons_inl hstep, ih fun d hd => h d (List.mem_cons_of_mem _ hd),
      List.append_assoc, List.singleton_append]

/-- Between quotes, everything is. -/
theorem scan_quoted {s : Bytes} (h : apos ∉ s) :
    scan step ⟨.quoted, word, words⟩ (s ++ rest) = scan step ⟨.quoted, word ++ s, words⟩ rest := by
  induction s generalizing word with
  | nil => rw [List.nil_append, List.append_nil]
  | cons b s ih =>
    rw [List.mem_cons, not_or] at h
    have hstep : step ⟨.quoted, word, words⟩ b = .inl ⟨.quoted, word ++ [b], words⟩ :=
      if_neg (Ne.symm h.1)
    rw [List.cons_append, scan_cons_inl hstep, ih h.2, List.append_assoc, List.singleton_append]

/-- **A piece** is added to the word that is being read, with its quotes and backslashes resolved.
-/
theorem scan_piece {p : Piece} (h : p.Ok) :
    scan step ⟨.word, word, words⟩ (p.text ++ rest) =
      scan step ⟨.word, word ++ p.value, words⟩ rest := by
  cases p with
  | literal w => exact scan_literal h.2
  | quoted s =>
    rw [Piece.text, List.cons_append, List.cons_append, List.append_assoc,
      scan_cons_inl (k := ⟨.quoted, word, words⟩) rfl, scan_quoted h, List.singleton_append,
      scan_cons_inl (k := ⟨.word, word ++ s, words⟩) rfl]
    rfl
  | escaped b =>
    have hstep : step ⟨.escaped, word, words⟩ b = .inl ⟨.word, word ++ [b], words⟩ := if_neg h
    rw [Piece.text, List.cons_append, List.singleton_append,
      scan_cons_inl (k := ⟨.escaped, word, words⟩) rfl, scan_cons_inl hstep]
    rfl

/-- The first piece of a word starts it. -/
theorem scan_first_piece {p : Piece} (h : p.Ok) :
    scan step ⟨.blank, [], words⟩ (p.text ++ rest) = scan step ⟨.word, p.value, words⟩ rest := by
  cases p with
  | literal w =>
    obtain ⟨b, w, rfl⟩ := List.exists_cons_of_ne_nil h.1
    have hb := h.2 b (List.mem_cons_self ..)
    obtain ⟨hnl, hblank, hapos, hbsl⟩ := hb.ne
    have hstep : step ⟨.blank, [], words⟩ b = .inl ⟨.word, [b], words⟩ := by
      simp only [step, hnl, hblank, hapos, hbsl, hb, if_true, if_false]
    rw [Piece.text, List.cons_append, scan_cons_inl hstep,
      scan_literal fun d hd => h.2 d (List.mem_cons_of_mem _ hd)]
    rfl
  | quoted s =>
    have hp : scan step ⟨.word, [], words⟩ ((Piece.quoted s).text ++ rest) =
        scan step ⟨.word, s, words⟩ rest := scan_piece h
    exact hp
  | escaped b =>
    have hp : scan step ⟨.word, [], words⟩ ((Piece.escaped b).text ++ rest) =
        scan step ⟨.word, [b], words⟩ rest := scan_piece h
    exact hp

theorem scan_pieces (h : ∀ p ∈ ps, p.Ok) :
    scan step ⟨.word, word, words⟩ (text ps ++ rest) =
      scan step ⟨.word, word ++ value ps, words⟩ rest := by
  induction ps generalizing word with
  | nil => rw [value, List.flatMap_nil, List.append_nil]; rfl
  | cons p ps ih =>
    have hrest := fun word => @ih word fun q hq => h q (List.mem_cons_of_mem _ hq)
    simp only [text, value, List.flatMap_cons, List.append_assoc] at hrest ⊢
    rw [scan_piece (h p (List.mem_cons_self ..)), hrest, List.append_assoc]

/-- A word of at least one piece. -/
theorem scan_word (hne : ps ≠ []) (h : ∀ p ∈ ps, p.Ok) :
    scan step ⟨.blank, [], words⟩ (text ps ++ rest) = scan step ⟨.word, value ps, words⟩ rest := by
  obtain ⟨p, ps, rfl⟩ := List.exists_cons_of_ne_nil hne
  have hrest : scan step ⟨.word, p.value, words⟩ (text ps ++ rest) =
      scan step ⟨.word, p.value ++ value ps, words⟩ rest :=
    scan_pieces fun q hq => h q (List.mem_cons_of_mem _ hq)
  simp only [text, value, List.flatMap_cons, List.append_assoc] at hrest ⊢
  rw [scan_first_piece (h p (List.mem_cons_self ..)), hrest]

/-! ## A line -/

/-- A word as it is written. -/
structure Written (ps : List Piece) : Prop where
  ne_nil : ps ≠ []
  ok : ∀ p ∈ ps, p.Ok

theorem scan_blanks (n : ℕ) :
    scan step ⟨.blank, [], words⟩ (List.replicate n sp ++ rest) =
      scan step ⟨.blank, [], words⟩ rest := by
  induction n with
  | zero => rfl
  | succ n ih =>
    rw [List.replicate_succ, List.cons_append, scan_cons_inl (k := ⟨.blank, [], words⟩) rfl, ih]

/-- The end of the last word. -/
theorem scan_end (hend : Line.finish (words ++ [word]) = .inr (words ++ [word])) (blanks : ℕ) :
    scan step ⟨.word, word, words⟩ (List.replicate blanks sp ++ nl :: rest) =
      .inr (words ++ [word], rest) := by
  cases blanks with
  | zero => exact scan_cons_inr hend rest
  | succ n =>
    rw [List.replicate_succ, List.cons_append,
      scan_cons_inl (k := ⟨.blank, [], words ++ [word]⟩) rfl, scan_blanks]
    exact scan_cons_inr hend rest

/-- **A command**: its words, with a space between two of them, and perhaps some more in front of
the line feed. -/
theorem scan_words {ws : List (List Piece)} (hne : ws ≠ []) (h : ∀ ps ∈ ws, Written ps)
    (hend : Line.finish (words ++ ws.map value) = .inr (words ++ ws.map value)) (blanks : ℕ) :
    scan step ⟨.blank, [], words⟩
        (joinWith sp (ws.map text) ++ (List.replicate blanks sp ++ nl :: rest)) =
      .inr (words ++ ws.map value, rest) := by
  induction ws generalizing words with
  | nil => exact absurd rfl hne
  | cons ps ws ih =>
    obtain ⟨hps, hok⟩ := h ps (List.mem_cons_self ..)
    cases ws with
    | nil =>
      rw [List.map_singleton, joinWith_singleton, scan_word hps hok]
      exact scan_end hend blanks
    | cons qs ws =>
      have hassoc : words ++ (ps :: qs :: ws).map value =
          (words ++ [value ps]) ++ (qs :: ws).map value := by
        rw [List.map_cons, List.append_assoc, List.singleton_append]
      rw [hassoc] at hend ⊢
      have hrest := ih (by simp) (fun u hu => h u (List.mem_cons_of_mem _ hu)) hend
      rw [List.map_cons, List.map_cons, joinWith_cons_cons, List.append_assoc, scan_word hps hok,
        List.cons_append, scan_cons_inl (k := ⟨.blank, [], words ++ [value ps]⟩) rfl,
          ← List.map_cons,
        hrest]

end Lib.Sh
