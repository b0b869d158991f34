import Shfs.Lib.ShWords
import Shfs.RemoteCall

/-!
# What the remote shell makes of a command

Where there is no Perl, the server is a shell that has been given a function for each command, and
it reads the commands as it reads any program: nothing on the server's side decodes a line. What
stands between a file name and the remote account is the quoting of `check_path` alone.

`Word.pieces` is a word of a command as the shell takes it apart: a quoted text is closed in front
of each quote, the quote is escaped, and the text is opened again. `Request.both_read` says that the
shell reads in a line just what `getline` of the Perl server reads in it: the name of the function
and the arguments. No name of a file makes it expand or execute anything, or end the line early.
-/

namespace Shfs

open Lib Lib.Sh

/-! ## Words -/

/-- The pieces of a text between single quotes, where `acc` has been read since the last one was
opened. -/
def quotedPieces (acc : Bytes) : Bytes → List Piece
  | [] => [.quoted acc]
  | c :: s =>
    if c = apos then .quoted acc :: .escaped apos :: quotedPieces [] s
    else quotedPieces (acc ++ [c]) s

/-- A word of a command line, as the shell takes it apart. -/
def Word.pieces : Word → List Piece
  | bare w => [.literal w]
  | quoted s => quotedPieces [] s

/-- A bare word that the shell takes as it is. -/
def Word.Plain : Word → Prop
  | bare w => w ≠ [] ∧ ∀ b ∈ w, Literal b
  | quoted _ => True

theorem quotedPieces_ne_nil (acc s : Bytes) : quotedPieces acc s ≠ [] := by
  induction s generalizing acc with
  | nil => exact List.cons_ne_nil _ _
  | cons c s ih =>
    rw [quotedPieces]
    split
    · exact List.cons_ne_nil _ _
    · exact ih _

theorem text_quotedPieces (acc s : Bytes) :
    text (quotedPieces acc s) = apos :: acc ++ quoteText s ++ [apos] := by
  induction s generalizing acc with
  | nil => simp [quotedPieces, text, Piece.text]
  | cons c s ih =>
    rw [quotedPieces]
    split
    · next hc =>
      subst hc
      have hrest := ih []
      rw [text] at hrest
      rw [text, List.flatMap_cons, List.flatMap_cons, hrest, quoteText_cons_apos]
      simp [Piece.text]
    · next hc =>
      rw [ih, quoteText_cons_ne hc]
      simp

theorem value_quotedPieces (acc s : Bytes) : value (quotedPieces acc s) = acc ++ s := by
  induction s generalizing acc with
  | nil => simp [quotedPieces, value, Piece.value]
  | cons c s ih =>
    rw [quotedPieces]
    split
    · next hc =>
      subst hc
      have hrest := ih []
      rw [value] at hrest
      rw [value, List.flatMap_cons, List.flatMap_cons, hrest]
      simp [Piece.value]
    · rw [ih, List.append_assoc, List.singleton_append]

theorem ok_quotedPieces {acc : Bytes} (hacc : apos ∉ acc) (s : Bytes) :
    ∀ p ∈ quotedPieces acc s, p.Ok := by
  induction s generalizing acc with
  | nil => exact List.forall_mem_singleton.mpr hacc
  | cons c s ih =>
    rw [quotedPieces]
    split
    · have hnl : apos ≠ nl := by decide
      exact List.forall_mem_cons.mpr ⟨hacc, List.forall_mem_cons.mpr ⟨hnl, ih List.not_mem_nil⟩⟩
    · next hc => exact ih (by simp [hacc, Ne.symm hc])

namespace Word

theorem text_pieces (w : Word) : Sh.text w.pieces = w.text := by
  cases w with
  | bare w => exact List.append_nil w
  | quoted s => exact text_quotedPieces [] s

theorem value_pieces (w : Word) : Sh.value w.pieces = w.value := by
  cases w with
  | bare w => exact List.append_nil w
  | quoted s => exact value_quotedPieces [] s

/-- **A word is written as the shell reads it**, whatever the text of a quoted word is. -/
theorem Plain.written {w : Word} (h : w.Plain) : Sh.Written w.pieces := by
  cases w with
  | bare w => exact ⟨List.cons_ne_nil _ _, List.forall_mem_singleton.mpr h⟩
  | quoted s => exact ⟨quotedPieces_ne_nil [] s, ok_quotedPieces List.not_mem_nil s⟩

end Word

/-! ## The words of a request -/

theorem literal_of_isDigit {b : Byte} (h : isDigit b = true) : Literal b := by
  simp only [isDigit, Bool.and_eq_true, decide_eq_true_eq] at h
  exact .inr (.inr (.inl ⟨UInt8.le_iff_toNat_le.mpr h.1, UInt8.le_iff_toNat_le.mpr h.2⟩))

theorem literal_dec (n : ℕ) : ∀ b ∈ dec n, Literal b := fun _ hb =>
  literal_of_isDigit (isDigit_of_mem_dec hb)

theorem literal_fmtPrec (prec : ℕ) (x : ℤ) : ∀ b ∈ fmtPrec prec x, Literal b := by
  intro b hb
  rw [fmtPrec, List.mem_append, List.mem_append] at hb
  rcases hb with (hb | hb) | hb
  · split at hb
    · obtain rfl := List.mem_singleton.mp hb
      decide
    · cases hb
  · rw [List.eq_of_mem_replicate hb]
    decide
  · exact literal_dec _ b hb

theorem plain_dec (n : ℕ) : (Word.bare (dec n)).Plain := ⟨numeral_ne_nil 10 n, literal_dec n⟩

theorem plain_oct (n : ℕ) : (Word.bare (oct n)).Plain :=
  ⟨numeral_ne_nil 8 n, fun _ hb =>
    literal_of_isDigit (isDigit_of_mem_numeral (by omega) (by omega) hb)⟩

/-- The text of a time has digits, a point, and perhaps signs. -/
theorem plain_strctime (tvSec : ℤ) : (Word.bare (strctime tvSec)).Plain := by
  refine ⟨(bareWord_strctime tvSec).1, fun b hb => ?_⟩
  simp only [strctime, List.mem_append] at hb
  rcases hb with (((((hb | hb) | hb) | hb) | hb) | hb) | hb
  · exact literal_fmtPrec _ _ b hb
  · exact literal_fmtPrec _ _ b hb
  · exact literal_fmtPrec _ _ b hb
  · exact literal_fmtPrec _ _ b hb
  · exact literal_fmtPrec _ _ b hb
  · obtain rfl := List.mem_singleton.mp hb
    decide
  · exact literal_fmtPrec _ _ b hb

theorem Call.args_plain (c : Call) : ∀ w ∈ c.args, w.Plain := by
  have hquoted : ∀ s, (Word.quoted s).Plain := fun _ => trivial
  have hwhich : ∀ t : TimeSet, (Word.bare t.text).Plain := by
    intro t
    cases t <;> exact ⟨by decide, literal_of_all rfl⟩
  cases c with
  | «open» file mode =>
      cases mode <;> simp [args, hquoted] <;> exact ⟨by decide, literal_of_all rfl⟩
  | trunc file size => by_cases h : size = 0 <;> simp [args, hquoted, plain_dec, h]
  | _ => simp [args, hquoted, plain_dec, plain_oct, plain_strctime, hwhich]

namespace Request

theorem args_plain (r : Request) : ∀ w ∈ r.args, w.Plain := by
  have hquoted : ∀ s, (Word.quoted s).Plain := fun _ => trivial
  cases r with
  | command c => exact c.args_plain
  | read file offset count ino => by_cases h : ino = 0 <;> simp [args, hquoted, plain_dec, h]
  | write fcacheSize file offset count ino => simp [args, hquoted, plain_dec]
  | _ => simp [args, hquoted]

/-- The names of the commands are names of functions. -/
theorem name_plain (r : Request) : (Word.bare r.name).Plain ∧ r.name ∉ reserved := by
  have hliteral : ∀ b ∈ r.name, Literal b := by
    cases r with
    | command c => cases c <;> exact literal_of_all rfl
    | ls stat file => cases stat <;> exact literal_of_all rfl
    | read file offset count ino =>
      rw [name]
      split <;> exact literal_of_all rfl
    | _ => exact literal_of_all rfl
  refine ⟨⟨r.name_ok.1.1, hliteral⟩, fun hmem => ?_⟩
  -- they all begin with the same two octets
  have hfront : r.name.take 2 = ascii "s_" := by
    cases r with
    | command c => cases c <;> rfl
    | ls stat file => cases stat <;> rfl
    | read file offset count ino =>
      rw [name]
      split <;> rfl
    | _ => rfl
  have hreserved : ∀ w ∈ reserved, w.take 2 ≠ ascii "s_" := by decide
  exact hreserved r.name hmem hfront

/-- The line of a request, word by word. After the name there is always a space. -/
theorem fullLine_plain (r : Request) (cred : Cred) : r.fullLine false cred =
    joinWith sp (((.bare r.name :: r.args).map Word.pieces).map Sh.text) ++
      (List.replicate (if r.args = [] then 1 else 0) sp ++ [nl]) := by
  have htext : ∀ ws : List Word, (ws.map Word.pieces).map Sh.text = ws.map Word.text := fun ws => by
    rw [List.map_map]
    exact List.map_congr_left fun w _ => w.text_pieces
  rw [htext, fullLine, headText, ugidText, if_neg Bool.false_ne_true, argText]
  rcases r.args with _ | ⟨w, ws⟩
  · simp [Word.text]
  · simp only [List.map_cons, joinWith_cons_cons, Word.text, if_neg (List.cons_ne_nil _ _)]
    simp

/-- Without credentials, a line that is sent is never cut. -/
theorem sent_eq_fullLine {cred : Cred} {r : Request} {l : Bytes}
    (h : (r.built false cred).line = some l) :
    l = r.fullLine false cred := by
  have hfits : ∀ p ∈ r.paths, p.Fits := by
    by_contra hpaths
    simp only [not_forall] at hpaths
    obtain ⟨p, hmem, hfits⟩ := hpaths
    rw [built_refused ⟨p, hmem, hfits⟩] at h
    cases h
  have hroom : r.measured = true ∨ r.room false cred ≤ SOCKBUF_SIZE := by
    rcases hm : r.measured with _ | _
    · have hwidth : cred.width false ≤ 1024 := Nat.one_le_two_pow (n := 10)
      exact .inr (r.room_le hwidth hfits hm)
    · exact .inl rfl
  exact r.line_eq_fullLine hroom h

/-- **What a shell reads** in a line that is sent are the words that are meant, whatever is in the
names: nothing in them ends the quotes, and so nothing in them is run. -/
theorem shell_reads {cred : Cred} {r : Request} {l : Bytes} (h : (r.built false cred).line = some l)
    (rest : Bytes) : scan Sh.step .init (l ++ rest) = .inr (r.words false cred, rest) := by
  obtain rfl := sent_eq_fullLine h
  have hwords : r.words false cred = (.bare r.name :: r.args).map Word.value := rfl
  have hvalue : ((.bare r.name :: r.args).map Word.pieces).map Sh.value =
      (.bare r.name :: r.args).map Word.value := by
    rw [List.map_map]
    exact List.map_congr_left fun w _ => w.value_pieces
  have hplain : ∀ w ∈ Word.bare r.name :: r.args, w.Plain :=
    List.forall_mem_cons.mpr ⟨r.name_plain.1, r.args_plain⟩
  rw [fullLine_plain, List.append_assoc, List.append_assoc, List.singleton_append, hwords, ← hvalue]
  refine Sh.scan_words (by simp) (List.forall_mem_map.mpr fun w hw => (hplain w hw).written)
    ?_ _
  rw [hvalue]
  exact if_neg r.name_plain.2

/-- **Both servers read the same**: in the line of any request that is sent, the remote shell finds
the name of the function and the arguments that are meant, whatever octets the names of the files
are made of, and `getline` of the Perl server finds them too. Both leave what is behind the line. -/
theorem both_read (cred : Cred) (r : Request) {l : Bytes} (h : (r.built false cred).line = some l)
    (rest : Bytes) :
    scan Sh.step .init (l ++ rest) = .inr (r.words false cred, rest) ∧
      scan getlineStep .init (l ++ rest) = .inr (r.words false cred, rest) := by
  refine ⟨shell_reads h rest, ?_⟩
  obtain rfl := sent_eq_fullLine h
  exact scan_append_inr (r.scan_fullLine (fun hp => absurd hp Bool.false_ne_true)) rest

/-- A name that would remove a directory, if the shell looked into it. -/
theorem both_read_hostile :
    scan Sh.step .init (ascii "s_rm '/a'\\''; rm -r $HOME; '\\'''\n" ++ ascii "s_") =
        .inr ([ascii "s_rm", ascii "/a'; rm -r $HOME; '"], ascii "s_") ∧
      scan getlineStep .init (ascii "s_rm '/a'\\''; rm -r $HOME; '\\'''\n" ++ ascii "s_") =
        .inr ([ascii "s_rm", ascii "/a'; rm -r $HOME; '"], ascii "s_") :=
  both_read ⟨1000, []⟩
    (.command (.unlink ⟨ascii "/a'; rm -r $HOME; '", by decide, by decide⟩)) (by decide) _

end Request

end Shfs
