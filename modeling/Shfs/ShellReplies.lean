import Shfs.Lib.Dd
import Shfs.Request
import Shfs.Replies
import Shfs.ShellServer

/-!
# Does every command of the shell server answer?

`Form` is the shape of a reply that a client function reads, and `Form.Accepts` says that some
octets are one complete reply of that shape. What a command prints is `Proc.printed`, given the data
that come behind the command line.

`Request.Answerable` is when it works out. The functions that end with one `echo` in each branch are
always answered. A listing, or the target of a link, must not have lines that look like the end. A
read must ask for something, and unless the copy is one block, the file must not end in the middle
of what is asked for; a slow one needs room for a temporary file. A write needs that or a
file it may write to, and `s_rmdir` a directory.
-/

namespace Shfs

open Lib

/-! ## Forms -/

/-- A last status line. -/
def Final (out : Bytes) : Prop :=
  ∃ code, (100 ≤ code ∧ code < 1000) ∧ code ≠ REP_PRELIM ∧ out = status code

/-- The octets the client sends behind the command line. -/
def Request.sent : Request → ℕ
  | write _ _ _ count _ => count.toNat
  | _ => 0

/-! ## Shapes -/

theorem length_status {code : ℕ} (h : 100 ≤ code ∧ code < 1000) : (status code).length = 8 := by
  have hne : code ≠ 0 := by omega
  have hle : (Nat.digits 10 code).length ≤ 3 :=
    (Nat.digits_length_le_iff (by decide) code).mpr (by omega)
  have hlt : 2 < (Nat.digits 10 code).length :=
    (Nat.lt_digits_length_iff (by decide) code).mpr (by omega)
  rw [status, dec, numeral, if_neg hne]
  simp only [List.length_append, List.length_map, List.length_reverse, List.length_singleton]
  have h4 : (ascii "### ").length = 4 := rfl
  omega

theorem length_prelim : (status REP_PRELIM).length = 8 := length_status (by decide)

variable {out d rest : Bytes} {count : ℕ} {lines : List Bytes}

theorem Final.length (h : Final out) : out.length = 8 := by
  obtain ⟨code, hcode, -, rfl⟩ := h
  exact length_status hcode

/-- The content of the file that `dd` can read, if there is one. -/
abbrev View (σ : Type) : Type := σ → Bytes → Option Bytes

/-- `dd` with `conv=sync` copies blocks of the file and reports them; a file that cannot be opened
gives neither. -/
structure ShellOS.SyncCopies {σ : Type} (os : ShellOS σ) (view : View σ) : Prop where
  missing : ∀ {s file} bs skip count, view s file = none →
    os.ddSync s file bs skip count = ([], false)
  copy : ∀ {s file f} bs skip count, view s file = some f → 0 < bs →
    (os.ddSync s file bs skip count).1 = padBlocks bs (blocks f bs skip count)
  report : ∀ {s file f} bs skip count, view s file = some f → 0 < bs →
    ((os.ddSync s file bs skip count).2 = true ↔
      Finds count (blockReport (wholeBlocks bs (blocks f bs skip count))
        (shortBlocks bs (blocks f bs skip count))))

section Answerable

variable {σ : Type} (os : ShellOS σ) (view : View σ) (s : Shell σ)

variable {os view s}

/-! ## The functions -/

@[simp] theorem Shell.printed_answer (s : Shell σ) (code : ℕ) (data : Bytes) :
    (s.answer code).printed data = status code := by
  rw [Shell.answer, Proc.printed_print, Proc.printed_done, List.append_nil]

theorem dec_eq_zero_iff (n : ℕ) : dec n = ascii "0" ↔ n = 0 := by
  rw [show ascii "0" = dec 0 from rfl, dec_injective.eq_iff]

/-- Aligned, in numbers. -/
theorem mod_eq_zero_iff (offset count : UInt32) :
    offset % count = 0 ↔ offset.toNat % count.toNat = 0 := by
  rw [← UInt32.toNat_inj, UInt32.toNat_mod]
  rfl

theorem toNat_pos_iff (count : UInt32) : 0 < count.toNat ↔ count ≠ 0 := by
  rw [Nat.pos_iff_ne_zero]
  exact not_congr (UInt32.toNat_inj (a := count) (b := 0))

/-- The blocks of a read are what is asked for. -/
theorem readBlocks_spec (offset : UInt32) {count : UInt32} (h : count ≠ 0) :
    let r := readBlocks offset count
    0 < r.1.toNat ∧ 0 < r.2.2.toNat ∧ r.1.toNat * r.2.2.toNat = count.toNat ∧
      r.1.toNat * r.2.1.toNat = offset.toNat := by
  have hpos := (toNat_pos_iff count).mpr h
  unfold readBlocks
  split
  · next hdvd =>
    have hmod := (mod_eq_zero_iff offset count).mp hdvd.2
    refine ⟨hpos, Nat.one_pos, Nat.mul_one _, ?_⟩
    rw [UInt32.toNat_div]
    exact Nat.mul_div_cancel' (Nat.dvd_of_mod_eq_zero hmod)
  · exact ⟨Nat.one_pos, hpos, Nat.one_mul _, Nat.one_mul _⟩

/-- Whether all blocks come, or none. -/
theorem readBlocks_whole_iff {offset count : UInt32} (h : count ≠ 0) (f : Bytes) :
    let r := readBlocks offset count
    let d := blocks f r.1.toNat r.2.1.toNat r.2.2.toNat
    (allBlocks r.1.toNat d = r.2.2.toNat ∨ d = []) ↔
      (offset % count = 0 ∨ f.length ≤ offset.toNat ∨
        offset.toNat + count.toNat ≤ f.length) := by
  obtain ⟨hbs, hblocks, hcount, hoffset⟩ := readBlocks_spec offset h
  intro r d
  have hlen : d.length = min count.toNat (f.length - offset.toNat) := by
    rw [length_blocks, hcount, hoffset]
  by_cases hdvd : offset % count = 0
  · -- one block is there or not
    have hone : r.2.2.toNat = 1 := by
      simp only [r, readBlocks, if_pos (And.intro h hdvd)]
      rfl
    have hle : allBlocks r.1.toNat d ≤ 1 := by
      refine allBlocks_le hbs ?_
      rw [hlen, ← hone, hcount]
      exact Nat.min_le_left _ _
    refine iff_of_true ?_ (Or.inl hdvd)
    rcases Nat.le_one_iff_eq_zero_or_eq_one.mp hle with h0 | h1
    · exact Or.inr ((allBlocks_eq_zero_iff hbs).mp h0)
    · exact Or.inl (h1.trans hone.symm)
  · have hone : r.1.toNat = 1 ∧ r.2.2.toNat = count.toNat := by
      simp only [r, readBlocks, if_neg (not_and.mpr fun _ => hdvd)]
      exact ⟨rfl, trivial⟩
    have hpos := (toNat_pos_iff count).mpr h
    rw [or_iff_right hdvd, hone.1, hone.2, allBlocks_one, ← List.length_eq_zero_iff, hlen]
    omega

/-- What `s_read` finds in a file. -/
theorem Shell.readData_eq {os : ShellOS σ} (hos : os.SyncCopies view) (s : Shell σ) {file f : Bytes}
    (hview : view s.fs file = some f) {bs : ℕ} (hbs : 0 < bs) (skip count : ℕ) :
    s.readData os file bs skip count =
      filledUp f bs skip count ((os.ddSync s.fs file bs skip count).2 = true) := by
  rw [Shell.readData, filledUp, ← hos.copy bs skip count hview hbs]

/-- What `s_read` finds where there is no file. -/
theorem Shell.readData_missing {os : ShellOS σ} (hos : os.SyncCopies view) (s : Shell σ)
    {file : Bytes} (hview : view s.fs file = none) (bs skip count : ℕ) :
    s.readData os file bs skip count = List.replicate (bs * count) 0 := by
  rw [Shell.readData, hos.missing bs skip count hview]
  rfl

/-- The report says whether all blocks have come. -/
theorem ShellOS.SyncCopies.found_iff {os : ShellOS σ} (hos : os.SyncCopies view) {fs : σ}
    {file f : Bytes} (hview : view fs file = some f) {bs : ℕ} (hbs : 0 < bs) (skip count : ℕ) :
    (os.ddSync fs file bs skip count).2 = true ↔ allBlocks bs (blocks f bs skip count) = count :=
  (hos.report bs skip count hview hbs).trans
    (finds_report_iff (allBlocks_le hbs (length_blocks_le f bs skip count)))

/-- The numbers of `s_statfs` are one line. -/
theorem Shell.nl_notMem_statfsLine {df : List Bytes} (h : ∀ l ∈ df, nl ∉ l) :
    nl ∉ Shell.statfsLine df := by
  have hline : ∀ l, nl ∉ l → nl ∉ Shell.dfNumbers l := by
    intro l hl hmem
    rcases mem_of_mem_joinWith hmem with hsp | ⟨w, hw, hc⟩
    · cases hsp
    · have hw' := List.mem_of_mem_filter (List.mem_of_mem_drop (List.mem_of_mem_take hw))
      exact hl (mem_of_mem_splitOn hw' hc)
  rw [Shell.statfsLine]
  rcases List.eq_nil_or_concat (df.map Shell.dfNumbers) with hnil | ⟨ls, l, hls⟩
  · rw [hnil]
    decide
  · rw [List.concat_eq_append] at hls
    have hl : l ∈ df.map Shell.dfNumbers := by
      rw [hls]
      exact List.mem_concat_self
    obtain ⟨line, hmem, rfl⟩ := List.mem_map.mp hl
    rw [hls, List.getLastD_concat]
    exact hline line (h line hmem)

end Answerable

/-! ## A system with one file -/

/-- The commands on a system with one file, which nothing changes. -/
def oneFileTools (name content : Bytes) : ShellOS Unit where
  readable _ file := file = name
  writable _ file := file = name
  isFile _ file := file = name
  isDir _ _ := false
  exists' _ file := file = name
  nonEmpty _ file := file = name ∧ content ≠ []
  ls _ _ _ _ := ([], false)
  lsPlain _ _ := false
  lsName _ file := file = name
  firstByte _ file := file = name ∧ content ≠ []
  dd _ file bs skip count := if file = name then blocks content bs skip count else []
  ddSync _ file bs skip count :=
    if file = name then
      let d := blocks content bs skip count
      (padBlocks bs d, allBlocks bs d = count)
    else ([], false)
  newFile _ _ := true
  tee _ _ data := data
  wc _ _ := true
  head _ _ _ := none
  ddWrite _ _ _ _ _ := (false, ())
  ddStdin _ _ _ _ := (none, fun _ => ())
  mkdir _ _ := (false, ())
  rmdir _ _ := (false, ())
  mv _ _ _ := (false, ())
  rm _ _ := (false, ())
  clobber _ _ := (false, ())
  ln _ _ _ := (false, ())
  lnSymbolic _ _ _ := (false, ())
  readlink _ _ := none
  lsLink _ _ := ([], true)
  chmod _ _ _ := (false, ())
  chown _ _ _ := (false, ())
  chgrp _ _ _ := (false, ())
  ddTrunc _ _ _ _ := (false, ())
  touch _ _ _ _ := (false, ())
  df _ _ := []
  rmTree _ _ := ()
  head_le := by rintro _ _ _ _ ⟨⟩
  ddStdin_le := by rintro _ _ _ _ _ ⟨⟩
  ls_line := by simp
  readlink_line := by rintro _ _ _ ⟨⟩
  lsLink_line := by simp
  df_line := by simp

/-- A shell with all tools, in the root directory. -/
def rootShell : Shell Unit := ⟨(), [], [], ascii "/tmp/._shfs_.0/", true, true⟩

theorem theFile_nul : (0 : Byte) ∉ ascii "/a" := by decide

theorem theFile_room : (ascii "/a").length + 1 ≤ SHFS_PATH_MAX := by decide

/-- The file of the commands below. -/
def theFile : Path := ⟨ascii "/a", theFile_nul, theFile_room⟩

end Shfs
