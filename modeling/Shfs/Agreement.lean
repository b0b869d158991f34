import Shfs.ShellReplies
import Shfs.PerlServer

/-!
# The same file on both servers

The Perl server works on octets, the shell server on the blocks of `dd`, and the client sends both
of them the same numbers. Here the two are compared on the same file: what a read of a page answers,
what a write leaves, and what a truncation leaves.

The reads agree as long as there is a file that can be read (`reads_agree_iff`): the shell server
fills up with zeros whatever `dd` has to say, so it also answers for a file that is not there. The
writes agree without a condition (`servers_agree`). A truncation carries the size as the product of
two numbers of 32 bits, of which the Perl server looks at the first one only, and the second one is
0 or 1 (`trunc_exact_iff`).
-/

namespace Shfs

open Lib

/-! ## The files -/

/-- A file, for someone who wants to read it. -/
inductive RemoteFile : Type where
  | missing
  | unreadable
  | content (f : Bytes)
  deriving DecidableEq, Repr

/-- What is in it; nothing if it cannot be read. -/
def RemoteFile.octets : RemoteFile → Bytes
  | content f => f
  | missing | unreadable => []

/-- What `dd` finds. -/
def RemoteFile.readable : RemoteFile → Option Bytes
  | content f => some f
  | missing | unreadable => none

section Servers

variable {σ τ : Type}

/-- The calls of the Perl server on regular files. `view` is what is to be read, and `contents` what
is there. -/
structure OS.Regular (os : OS σ) (view : Ids → σ → Bytes → RemoteFile)
    (contents : σ → Bytes → Bytes) : Prop where
  missing : ∀ {ids s file}, view ids s file = .missing →
    os.open' ids s .rdonly file = false ∧ os.exists' ids s file = false
  unreadable : ∀ {ids s file}, view ids s file = .unreadable →
    os.open' ids s .rdonly file = false ∧ os.exists' ids s file = true
  content : ∀ {ids s file f}, view ids s file = .content f →
    os.open' ids s .rdonly file = true ∧
      ∀ offset size, os.readFile ids s file offset size = some ((f.drop offset).take size)
  written : ∀ {ids s file offset data}, (os.writeFile ids s file offset data).1 = true →
    contents (os.writeFile ids s file offset data).2 file = store (contents s file) offset data
  truncated : ∀ {ids s file size}, (os.truncate ids s file size).1 = true →
    contents (os.truncate ids s file size).2 file = fetch (contents s file) 0 (decVal size)

/-- The commands of the shell server on regular files. -/
structure ShellOS.Regular (os : ShellOS τ) (view : τ → Bytes → RemoteFile)
    (contents : τ → Bytes → Bytes) : Prop where
  sync : os.SyncCopies fun s file => (view s file).readable
  written : ∀ {s file bs seek data}, (os.ddWrite s file bs seek data).1 = true →
    contents (os.ddWrite s file bs seek data).2 file = store (contents s file) (bs * seek) data
  writtenStdin : ∀ {s file seek count data}, (os.ddStdin s file seek count).1 = none →
    data.length = count →
      contents ((os.ddStdin s file seek count).2 data) file = store (contents s file) seek data
  clobbered : ∀ {s file}, (os.clobber s file).1 = true → contents (os.clobber s file).2 file = []
  truncated : ∀ {s file bs seek}, (os.ddTrunc s file bs seek).1 = true →
    contents (os.ddTrunc s file bs seek).2 file = fetch (contents s file) 0 (bs * seek)

/-! ## Reads and writes -/

@[simp] theorem Perl.printed_answer (p : Perl σ) (code : ℕ) (data : Bytes) :
    (p.answer code).printed data = status code := by
  rw [Perl.answer, Proc.printed_print, Proc.printed_done, List.append_nil]

/-- A reply with data. -/
def SendsData (out d : Bytes) : Prop := out = status REP_PRELIM ++ (d ++ status REP_COMPLETE)

/-- A reply that ends with COMPLETE. -/
def Completes (out : Bytes) : Prop := ∃ before, out = before ++ status REP_COMPLETE

/-- If one server answers with data, the other one does so, and both send the same octets of the
file. -/
def ReadsAgree (shell perl f : Bytes) (offset count : ℕ) : Prop :=
  ∀ d, SendsData shell d → ∃ d', SendsData perl d' ∧
    d = fetch f offset count ∧ d' = fetch f offset count

theorem SendsData.inj {out d d' : Bytes} (h : SendsData out d) (h' : SendsData out d') :
    d = d' := by
  have heq : status REP_PRELIM ++ (d ++ status REP_COMPLETE) =
      status REP_PRELIM ++ (d' ++ status REP_COMPLETE) := h.symm.trans h'
  exact List.append_cancel_right (List.append_cancel_left heq)

/-- A status line is no data. -/
theorem not_sendsData_status {code : ℕ} (h : 100 ≤ code ∧ code < 1000) (d : Bytes) :
    ¬ SendsData (status code) d := by
  intro hreads
  have hlen := congrArg List.length hreads
  rw [length_status h, List.length_append, List.length_append, length_prelim,
    length_status (show 100 ≤ REP_COMPLETE ∧ REP_COMPLETE < 1000 by decide)] at hlen
  omega

/-- The last line of a reply tells its code. -/
theorem completes_status_iff {code : ℕ} (h : 100 ≤ code ∧ code < 1000) (before : Bytes) :
    Completes (before ++ status code) ↔ code = REP_COMPLETE := by
  constructor
  · rintro ⟨before', heq⟩
    have hcomplete := length_status (show 100 ≤ REP_COMPLETE ∧ REP_COMPLETE < 1000 by decide)
    have hstatus := (List.append_inj' heq ((length_status h).trans hcomplete.symm)).2
    rw [status, status] at hstatus
    exact dec_injective (List.append_cancel_left (List.append_cancel_right hstatus))
  · rintro rfl
    exact ⟨before, rfl⟩

variable {os : OS σ} {tools : ShellOS τ} {pview : Ids → σ → Bytes → RemoteFile}
  {sview : τ → Bytes → RemoteFile} {pcontents : σ → Bytes → Bytes} {scontents : τ → Bytes → Bytes}

/-- What the shell server answers to a read of whole blocks. -/
theorem Shell.reads_fetch (hs : tools.Regular sview scontents) (s : Shell τ) (file : Path)
    {offset count : UInt32} (hcount : count ≠ 0) (hdvd : offset % count = 0) (data : Bytes) :
    SendsData ((s.runCommand tools (Request.read file offset count 0).name
        ((Request.read file offset count 0).args.map Word.value)).printed data)
      (fetch (sview s.fs (s.path file.text)).octets offset.toNat count.toNat) := by
  obtain ⟨hbs, hblocks, hbytes, hskip⟩ := readBlocks_spec offset hcount
  have hdata : s.readData tools (s.path file.text) (readBlocks offset count).1.toNat
      (readBlocks offset count).2.1.toNat (readBlocks offset count).2.2.toNat =
        fetch (sview s.fs (s.path file.text)).octets offset.toNat count.toNat := by
    cases hview : (sview s.fs (s.path file.text)).readable with
    | none =>
      have hnone : (sview s.fs (s.path file.text)).octets = [] := by
        revert hview
        cases sview s.fs (s.path file.text) <;> simp [RemoteFile.readable, RemoteFile.octets]
      rw [s.readData_missing hs.sync hview, hnone, hbytes, fetch, List.drop_nil, List.take_nil]
      simp
    | some f =>
      have hsome : (sview s.fs (s.path file.text)).octets = f := by
        revert hview
        cases sview s.fs (s.path file.text) <;> simp [RemoteFile.readable, RemoteFile.octets]
      have hfound := hs.sync.found_iff hview hbs (readBlocks offset count).2.1.toNat
        (readBlocks offset count).2.2.toNat
      rw [s.readData_eq hs.sync hview hbs, hsome,
        filledUp_eq_fetch hfound ((readBlocks_whole_iff hcount f).mpr (Or.inl hdvd)), hbytes, hskip]
  have hne : dec count.toNat ≠ ascii "0" := by
    rw [Ne, dec_eq_zero_iff]
    exact fun h => hcount (UInt32.toNat_inj.mp h)
  change (s.sRead tools [file.text, dec offset.toNat, dec count.toNat,
    dec (readBlocks offset count).1.toNat, dec (readBlocks offset count).2.1.toNat,
    dec (readBlocks offset count).2.2.toNat]).printed data = _
  rw [Shell.sRead]
  simp only [Shell.arg, List.getD_cons_zero, List.getD_cons_succ, decVal_dec_self, if_neg hne,
    hdata]
  rw [Proc.printed_print, Proc.printed_print, Shell.printed_answer]

/-- **What the Perl server answers to a read** is data only if there is a file. -/
theorem Perl.reads_iff (hp : os.Regular pview pcontents) (home : Bytes) (p : Perl σ) (file : Path)
    (offset count : UInt32) (data d : Bytes) :
    SendsData ((p.runCommand os home (Request.read file offset count 0).name
        ((Request.read file offset count 0).args.map Word.value)).printed data) d ↔
      ∃ f, pview p.ids p.fs (p.path file.text) = .content f ∧
        d = fetch f offset.toNat count.toNat := by
  obtain ⟨rest, hrest⟩ : ∃ rest, (Request.read file offset count 0).args.map Word.value =
      file.text :: dec offset.toNat :: dec count.toNat :: rest := ⟨_, rfl⟩
  rw [hrest]
  change SendsData ((p.sRead os _).printed data) d ↔ _
  rw [Perl.sRead]
  simp only [Perl.arg, List.getD_cons_zero, List.getD_cons_succ, decVal_dec_self]
  have hstatus : ∀ {code : ℕ}, 100 ≤ code ∧ code < 1000 →
      ¬ SendsData ((p.answer code).printed data) d := by
    intro code hcode
    rw [Perl.printed_answer]
    exact not_sendsData_status hcode d
  cases hview : pview p.ids p.fs (p.path file.text) with
  | missing =>
    obtain ⟨hopen, hexists⟩ := hp.missing hview
    rw [if_pos (by rw [hopen]; exact Bool.false_ne_true), Perl.notOpen, hexists]
    exact iff_of_false (hstatus (by decide)) (by rintro ⟨_, ⟨⟩, -⟩)
  | unreadable =>
    obtain ⟨hopen, hexists⟩ := hp.unreadable hview
    rw [if_pos (by rw [hopen]; exact Bool.false_ne_true), Perl.notOpen, hexists]
    exact iff_of_false (hstatus (by decide)) (by rintro ⟨_, ⟨⟩, -⟩)
  | content f =>
    obtain ⟨hopen, hread⟩ := hp.content hview
    have hfetch : (f.drop offset.toNat).take count.toNat ++
        List.replicate (count.toNat - ((f.drop offset.toNat).take count.toNat).length) 0 =
          fetch f offset.toNat count.toNat := by
      rw [fetch, List.length_take, List.length_drop]
      congr 2
      omega
    rw [if_neg (not_not.mpr hopen), hread]
    dsimp only
    rw [hfetch, Proc.printed_print, Proc.printed_print, Perl.printed_answer]
    constructor
    · intro h
      exact ⟨f, rfl, h.inj rfl⟩
    · rintro ⟨f', ⟨⟩, rfl⟩
      rfl

/-- **The reads agree** exactly if there is a file that can be read. Both servers then print PRELIM,
the octets with zeros behind the end of the file, and COMPLETE. -/
theorem reads_agree_iff (hp : os.Regular pview pcontents) (hs : tools.Regular sview scontents)
    (home : Bytes) (p : Perl σ) (s : Shell τ) (file : Path) {offset count : UInt32}
    (hcount : count ≠ 0) (hdvd : offset % count = 0) {r : RemoteFile}
    (hpr : pview p.ids p.fs (p.path file.text) = r) (hsr : sview s.fs (s.path file.text) = r)
    (data : Bytes) :
    ReadsAgree
        ((s.runCommand tools (Request.read file offset count 0).name
          ((Request.read file offset count 0).args.map Word.value)).printed data)
        ((p.runCommand os home (Request.read file offset count 0).name
          ((Request.read file offset count 0).args.map Word.value)).printed data)
        r.octets offset.toNat count.toNat ↔
      ∃ f, r = .content f := by
  have hshell := s.reads_fetch hs file hcount hdvd data
  rw [hsr] at hshell
  constructor
  · intro h
    obtain ⟨d', hperl, -, -⟩ := h _ hshell
    obtain ⟨f, hf, -⟩ := (p.reads_iff hp home file offset count data d').mp hperl
    exact ⟨f, hpr.symm.trans hf⟩
  · rintro ⟨f, rfl⟩ d hd
    refine ⟨fetch f offset.toNat count.toNat, ?_, hd.inj hshell, rfl⟩
    exact (p.reads_iff hp home file offset count data _).mpr ⟨f, hpr, rfl⟩

/-- A sub that ends with a change says COMPLETE if it works. -/
theorem Perl.completes_change (p : Perl σ) (r : Bool × σ) {code : ℕ}
    (hcode : (100 ≤ code ∧ code < 1000) ∧ code ≠ REP_COMPLETE) (before data : Bytes) :
    Completes (before ++ (p.change r code).printed data) ↔ r.1 = true := by
  rw [Perl.change, Perl.printed_answer]
  split
  · next h => exact iff_of_true ((completes_status_iff (by decide) before).mpr rfl) h
  · next h => exact iff_of_false (fun hc => hcode.2 ((completes_status_iff hcode.1 before).mp hc)) h

theorem Perl.returned_change (p : Perl σ) (r : Bool × σ) (code : ℕ) (data : Bytes) :
    (p.change r code).returned data = some { p with fs := r.2 } := rfl

/-- The same for the shell server. -/
theorem Shell.completes_change (s : Shell τ) (r : Bool × τ) {code : ℕ}
    (hcode : (100 ≤ code ∧ code < 1000) ∧ code ≠ REP_COMPLETE) (before data : Bytes) :
    Completes (before ++ (s.change r code).printed data) ↔ r.1 = true := by
  rw [Shell.change, Shell.printed_answer]
  split
  · next h => exact iff_of_true ((completes_status_iff (by decide) before).mpr rfl) h
  · next h => exact iff_of_false (fun hc => hcode.2 ((completes_status_iff hcode.1 before).mp hc)) h

theorem Shell.returned_change (s : Shell τ) (r : Bool × τ) (code : ℕ) (data : Bytes) :
    (s.change r code).returned data = some { s with fs := r.2 } := rfl

/-- The block and the offset of a write are the place that is meant. -/
theorem writeBlocks_spec (fcacheSize offset : UInt32) :
    (writeBlocks fcacheSize offset).1.toNat * (writeBlocks fcacheSize offset).2.toNat =
      offset.toNat := by
  rw [writeBlocks]
  split
  · next hdvd =>
    have hmod := (mod_eq_zero_iff offset fcacheSize).mp hdvd
    rw [UInt32.toNat_div]
    exact Nat.mul_div_cancel' (Nat.dvd_of_mod_eq_zero hmod)
  · exact Nat.one_mul _

/-- **A write of the Perl server** that says COMPLETE has stored the data at its offset, and has
left the rest of the file as it was. -/
theorem Perl.write_stores (hp : os.Regular pview pcontents) (home : Bytes) (p : Perl σ)
    (fcacheSize : UInt32) (file : Path) (offset count : UInt32) (ino : UInt64) {data : Bytes}
    (hdata : data.length = count.toNat)
    (hexists : os.exists' p.ids p.fs (p.path file.text) = true)
    (hout : Completes ((p.runCommand os home (Request.write fcacheSize file offset count ino).name
      ((Request.write fcacheSize file offset count ino).args.map Word.value)).printed data)) :
    ∃ p', (p.runCommand os home (Request.write fcacheSize file offset count ino).name
        ((Request.write fcacheSize file offset count ino).args.map Word.value)).returned data =
          some p' ∧
      pcontents p'.fs (p.path file.text) =
        store (pcontents p.fs (p.path file.text)) offset.toNat data := by
  obtain ⟨rest, hrest⟩ : ∃ rest,
      (Request.write fcacheSize file offset count ino).args.map Word.value =
        file.text :: dec offset.toNat :: dec count.toNat :: rest := ⟨_, rfl⟩
  rw [hrest] at hout ⊢
  change Completes ((p.sWrite os _).printed data) at hout
  change ∃ p', (p.sWrite os _).returned data = some p' ∧ _
  rw [Perl.sWrite] at hout ⊢
  simp only [Perl.arg, List.getD_cons_zero, List.getD_cons_succ, decVal_dec_self] at hout ⊢
  by_cases hopen : os.open' p.ids p.fs .wronly (p.path file.text) = true
  · rw [if_neg (not_not.mpr hopen)] at hout ⊢
    rw [Proc.printed_print, Proc.printed_take hdata.ge, ← hdata, List.take_length] at hout
    refine ⟨{ p with fs := (os.writeFile p.ids p.fs (p.path file.text) offset.toNat data).2 }, ?_,
      hp.written ((Perl.completes_change _ _ (by decide) _ _).mp hout)⟩
    rw [Proc.returned_print, ← hdata, Proc.returned_take le_rfl, List.take_length,
      Perl.returned_change]
  · -- the file is there and cannot be opened
    rw [if_pos hopen, Perl.notOpen, if_pos hexists, Perl.printed_answer] at hout
    exact absurd ((completes_status_iff (by decide) []).mp hout) (by decide)

/-- A write that has given up does not say COMPLETE. -/
theorem Shell.not_completes_writeFailed (s : Shell τ) (count : ℕ) (before data : Bytes) :
    ¬ Completes (before ++ (s.sWriteFailed count).printed data) := by
  have hnil : (Proc.take count fun _ => Proc.done s).printed data = [] := by
    rw [Proc.printed]
    split <;> rfl
  rw [Shell.sWriteFailed, Proc.printed_print, hnil, List.append_nil,
    completes_status_iff (by decide)]
  decide

/-- **A write of the shell server** that says COMPLETE has stored the data: with a temporary file
in blocks, otherwise octet by octet. -/
theorem Shell.write_stores (hs : tools.Regular sview scontents) (s : Shell τ)
    (fcacheSize : UInt32) (file : Path) (offset count : UInt32) (ino : UInt64) {data : Bytes}
    (hdata : data.length = count.toNat)
    (hout : Completes ((s.runCommand tools (Request.write fcacheSize file offset count ino).name
      ((Request.write fcacheSize file offset count ino).args.map Word.value)).printed data)) :
    ∃ s', (s.runCommand tools (Request.write fcacheSize file offset count ino).name
        ((Request.write fcacheSize file offset count ino).args.map Word.value)).returned data =
          some s' ∧
      scontents s'.fs (s.path file.text) =
        store (scontents s.fs (s.path file.text)) offset.toNat data := by
  have hargs : (Request.write fcacheSize file offset count ino).args.map Word.value =
      [file.text, dec offset.toNat, dec count.toNat, dec (writeBlocks fcacheSize offset).1.toNat,
        dec (writeBlocks fcacheSize offset).2.toNat, dec ino.toNat] := rfl
  rw [hargs] at hout ⊢
  change Completes ((s.sWrite tools _).printed data) at hout
  change ∃ s', (s.sWrite tools _).returned data = some s' ∧ _
  rw [Shell.sWrite] at hout ⊢
  simp only [Shell.arg, List.getD_cons_zero, List.getD_cons_succ, decVal_dec_self,
    dec_eq_zero_iff] at hout ⊢
  split at hout
  · -- through a temporary file, in blocks
    next htmp =>
    rw [if_pos htmp]
    cases hhead : tools.head s.fs (s.tmpFile (dec ino.toNat)) count.toNat with
    | none =>
      rw [hhead, Proc.printed_print, Proc.printed_take hdata.ge, ← hdata, List.take_length] at hout
      dsimp only at hout ⊢
      rw [Proc.returned_print, ← hdata, Proc.returned_take le_rfl, List.take_length]
      split at hout
      · next hdd =>
        rw [if_pos hdd]
        refine ⟨_, rfl, ?_⟩
        -- the blocks begin where the offset says
        rw [← writeBlocks_spec fcacheSize offset]
        exact hs.written hdd
      · -- the blocks were not written: ENOSPC or EPERM
        exfalso
        split at hout
        · rw [Shell.printed_answer, completes_status_iff (by decide)] at hout
          revert hout
          decide
        · rw [Shell.printed_answer, completes_status_iff (by decide)] at hout
          revert hout
          decide
    | some n =>
      have hn : n ≤ data.length := hdata.symm ▸ tools.head_le _ _ _ _ hhead
      rw [hhead, Proc.printed_print, Proc.printed_take hn] at hout
      exact absurd hout (s.not_completes_writeFailed _ _ _)
  · -- from the pipe, octet by octet
    next htmp =>
    rw [if_neg htmp]
    split at hout
    · next hwritable =>
      rw [if_pos hwritable]
      split at hout
      · next hzero =>
        have hnil : data = [] := List.eq_nil_of_length_eq_zero (hdata.trans hzero)
        rw [if_pos hzero, hnil]
        exact ⟨s, rfl, (store_nil _ _).symm⟩
      · next hzero =>
        rw [if_neg hzero]
        cases hdd : (tools.ddStdin s.fs (s.path file.text) offset.toNat count.toNat).1 with
        | none =>
          rw [hdd] at hout
          dsimp only at hout ⊢
          rw [Proc.returned_print, ← hdata, Proc.returned_take le_rfl, List.take_length]
          exact ⟨_, rfl, hs.writtenStdin (hdata.symm ▸ hdd) rfl⟩
        | some n =>
          have hn : n ≤ data.length := hdata.symm ▸ tools.ddStdin_le _ _ _ _ _ hdd
          rw [hdd, Proc.printed_print, Proc.printed_take hn] at hout
          exact absurd hout (Shell.not_completes_writeFailed _ _ _ _)
    · -- the function says nothing
      -- what it would have to print is longer than nothing
      obtain ⟨before, hbefore⟩ := hout
      have hlen := congrArg List.length hbefore
      rw [List.length_append,
        length_status (show 100 ≤ REP_COMPLETE ∧ REP_COMPLETE < 1000 by decide)] at hlen
      exact absurd hlen (Nat.succ_ne_zero _).symm

/-- **Both servers read and write the same octets**, as long as there is a file to be read; a write
that both of them complete leaves the same file. Of a file that is missing the shell server makes
zeros, where the Perl server has only its COMPLETE. -/
theorem servers_agree (hp : os.Regular pview pcontents) (hs : tools.Regular sview scontents)
    (home : Bytes) (p : Perl σ) (s : Shell τ) (file : Path) :
    (∀ (offset count : UInt32) (r : RemoteFile) (data : Bytes), count ≠ 0 → offset % count = 0 →
      pview p.ids p.fs (p.path file.text) = r → sview s.fs (s.path file.text) = r →
        (ReadsAgree
            ((s.runCommand tools (Request.read file offset count 0).name
              ((Request.read file offset count 0).args.map Word.value)).printed data)
            ((p.runCommand os home (Request.read file offset count 0).name
              ((Request.read file offset count 0).args.map Word.value)).printed data)
            r.octets offset.toNat count.toNat ↔
          ∃ f, r = .content f)) ∧
    ∀ (fcacheSize offset count : UInt32) (ino : UInt64) (data old : Bytes),
      data.length = count.toNat → os.exists' p.ids p.fs (p.path file.text) = true →
      pcontents p.fs (p.path file.text) = old → scontents s.fs (s.path file.text) = old →
      Completes ((p.runCommand os home (Request.write fcacheSize file offset count ino).name
        ((Request.write fcacheSize file offset count ino).args.map Word.value)).printed data) →
      Completes ((s.runCommand tools (Request.write fcacheSize file offset count ino).name
        ((Request.write fcacheSize file offset count ino).args.map Word.value)).printed data) →
      ∃ p' s', (p.runCommand os home (Request.write fcacheSize file offset count ino).name
          ((Request.write fcacheSize file offset count ino).args.map Word.value)).returned data =
            some p' ∧
        (s.runCommand tools (Request.write fcacheSize file offset count ino).name
          ((Request.write fcacheSize file offset count ino).args.map Word.value)).returned data =
            some s' ∧
        pcontents p'.fs (p.path file.text) = store old offset.toNat data ∧
        scontents s'.fs (s.path file.text) = store old offset.toNat data := by
  refine ⟨fun offset count r data hcount hdvd hpr hsr =>
    reads_agree_iff hp hs home p s file hcount hdvd hpr hsr data, ?_⟩
  rintro fcacheSize offset count ino data old hdata hexists hpold hsold hpout hsout
  obtain ⟨p', hp', hpnew⟩ :=
    p.write_stores hp home fcacheSize file offset count ino hdata hexists hpout
  obtain ⟨s', hs', hsnew⟩ := s.write_stores hs fcacheSize file offset count ino hdata hsout
  rw [hpold] at hpnew
  rw [hsold] at hsnew
  exact ⟨p', s', hp', hs', hpnew, hsnew⟩

/-! ## Truncations -/

/-- A truncation of the Perl server that says COMPLETE: the first number is the size. -/
theorem Perl.trunc_contents (hp : os.Regular pview pcontents) (home : Bytes) (p : Perl σ)
    (file : Path) (size : UInt64) {p' : Perl σ} (data : Bytes)
    (hret : (p.runCommand os home (Call.trunc file size).name
      ((Call.trunc file size).args.map Word.value)).returned data = some p')
    (hout : Completes ((p.runCommand os home (Call.trunc file size).name
      ((Call.trunc file size).args.map Word.value)).printed data)) :
    pcontents p'.fs (p.path file.text) =
      fetch (pcontents p.fs (p.path file.text)) 0
        (if size = 0 then 1 else size.toUInt32.toNat) := by
  obtain ⟨rest, hrest⟩ : ∃ rest, (Call.trunc file size).args.map Word.value =
      file.text :: dec (if size = 0 then 1 else size.toUInt32.toNat) :: rest := by
    by_cases h : size = 0
    · exact ⟨[dec 0], by simp only [Call.args, h, if_true]; rfl⟩
    · exact ⟨[dec 1], by simp only [Call.args, h, if_false]; rfl⟩
  rw [hrest] at hret hout
  change (p.sTrunc os _).returned data = some p' at hret
  change Completes ([] ++ (p.sTrunc os _).printed data) at hout
  rw [Perl.sTrunc, Perl.returned_change] at hret
  rw [Perl.sTrunc, Perl.completes_change _ _ (by decide)] at hout
  simp only [Perl.arg, List.getD_cons_zero, List.getD_cons_succ] at hret hout
  rw [← Option.some.inj hret]
  dsimp only
  rw [hp.truncated hout, decVal_dec_self]

/-- A truncation of the shell server that says COMPLETE: both numbers count. -/
theorem Shell.trunc_contents (hs : tools.Regular sview scontents) (s : Shell τ) (file : Path)
    (size : UInt64) {s' : Shell τ} (data : Bytes)
    (hret : (s.runCommand tools (Call.trunc file size).name
      ((Call.trunc file size).args.map Word.value)).returned data = some s')
    (hout : Completes ((s.runCommand tools (Call.trunc file size).name
      ((Call.trunc file size).args.map Word.value)).printed data)) :
    scontents s'.fs (s.path file.text) =
      fetch (scontents s.fs (s.path file.text)) 0 size.toUInt32.toNat := by
  have hcode : ∀ fs, (100 ≤ Shell.notDone tools fs (s.path file.text) ∧
      Shell.notDone tools fs (s.path file.text) < 1000) ∧
        Shell.notDone tools fs (s.path file.text) ≠ REP_COMPLETE := by
    intro fs
    rw [Shell.notDone]
    split <;> decide
  change (s.sTrunc tools _).returned data = some s' at hret
  change Completes ([] ++ (s.sTrunc tools _).printed data) at hout
  by_cases h : size = 0
  · have hargs : (Call.trunc file size).args.map Word.value = [file.text, dec 1, dec 0] := by
      simp only [Call.args, h, if_true]
      rfl
    rw [hargs, Shell.sTrunc] at hret hout
    simp only [Shell.arg, List.getD_cons_zero, List.getD_cons_succ,
      if_pos ((dec_eq_zero_iff 0).mpr rfl)] at hret hout
    rw [Shell.returned_change] at hret
    rw [Shell.completes_change _ _ (hcode _)] at hout
    rw [← Option.some.inj hret, h]
    exact (hs.clobbered hout).trans (fetch_zero _ _).symm
  · have hargs : (Call.trunc file size).args.map Word.value =
        [file.text, dec size.toUInt32.toNat, dec 1] := by
      simp only [Call.args, h, if_false]
      rfl
    have hone : dec 1 ≠ ascii "0" := mt (dec_eq_zero_iff 1).mp (by decide)
    rw [hargs, Shell.sTrunc] at hret hout
    simp only [Shell.arg, List.getD_cons_zero, List.getD_cons_succ, if_neg hone,
      decVal_dec_self] at hret hout
    rw [Shell.returned_change] at hret
    rw [Shell.completes_change _ _ (hcode _)] at hout
    rw [← Option.some.inj hret]
    have htrunc := hs.truncated hout
    rwa [Nat.mul_one] at htrunc

/-- A file is cut to one length only. -/
theorem fetch_length_inj_iff (f : Bytes) (m n : ℕ) : fetch f 0 m = fetch f 0 n ↔ m = n := by
  constructor
  · intro h
    have hlen := congrArg List.length h
    rwa [length_fetch, length_fetch] at hlen
  · rintro rfl
    rfl

/-- **Truncations** that say COMPLETE leave the file that was asked for exactly if the size is below
2^32 and, on the Perl server, not 0; they leave the same file exactly if it is not 0. -/
theorem trunc_exact_iff (hp : os.Regular pview pcontents) (hs : tools.Regular sview scontents)
    (home : Bytes) (p : Perl σ) (s : Shell τ) (file : Path) (size : UInt64) {old data : Bytes}
    (hpold : pcontents p.fs (p.path file.text) = old)
    (hsold : scontents s.fs (s.path file.text) = old) {p' : Perl σ} {s' : Shell τ}
    (hpret : (p.runCommand os home (Call.trunc file size).name
      ((Call.trunc file size).args.map Word.value)).returned data = some p')
    (hsret : (s.runCommand tools (Call.trunc file size).name
      ((Call.trunc file size).args.map Word.value)).returned data = some s') :
    (Completes ((p.runCommand os home (Call.trunc file size).name
        ((Call.trunc file size).args.map Word.value)).printed data) →
      (pcontents p'.fs (p.path file.text) = fetch old 0 size.toNat ↔
        size ≠ 0 ∧ size.toNat < 2 ^ 32)) ∧
    (Completes ((s.runCommand tools (Call.trunc file size).name
        ((Call.trunc file size).args.map Word.value)).printed data) →
      (scontents s'.fs (s.path file.text) = fetch old 0 size.toNat ↔ size.toNat < 2 ^ 32)) ∧
    (Completes ((p.runCommand os home (Call.trunc file size).name
        ((Call.trunc file size).args.map Word.value)).printed data) →
      Completes ((s.runCommand tools (Call.trunc file size).name
        ((Call.trunc file size).args.map Word.value)).printed data) →
      (pcontents p'.fs (p.path file.text) = scontents s'.fs (s.path file.text) ↔ size ≠ 0)) := by
  have hnarrow : size.toUInt32.toNat = size.toNat % 2 ^ 32 := UInt64.toNat_toUInt32 size
  have hlt : size.toNat % 2 ^ 32 = size.toNat ↔ size.toNat < 2 ^ 32 := Nat.mod_eq_iff_lt (by decide)
  have hzero : size = 0 ↔ size.toNat = 0 := UInt64.toNat_inj.symm
  have hperl : Completes ((p.runCommand os home (Call.trunc file size).name
      ((Call.trunc file size).args.map Word.value)).printed data) →
        pcontents p'.fs (p.path file.text) =
          fetch old 0 (if size = 0 then 1 else size.toNat % 2 ^ 32) := by
    intro hout
    rw [p.trunc_contents hp home file size data hpret hout, hpold, hnarrow]
  have hshell : Completes ((s.runCommand tools (Call.trunc file size).name
      ((Call.trunc file size).args.map Word.value)).printed data) →
        scontents s'.fs (s.path file.text) = fetch old 0 (size.toNat % 2 ^ 32) := by
    intro hout
    rw [s.trunc_contents hs file size data hsret hout, hsold, hnarrow]
  refine ⟨fun hout => ?_, fun hout => ?_, fun hpout hsout => ?_⟩
  · rw [hperl hout, fetch_length_inj_iff]
    split
    · next h => exact iff_of_false (by rw [hzero.mp h]; decide) fun hc => hc.1 h
    · next h => exact hlt.trans (and_iff_right h).symm
  · rw [hshell hout, fetch_length_inj_iff, hlt]
  · rw [hperl hpout, hshell hsout, fetch_length_inj_iff]
    split
    · next h => exact iff_of_false (by rw [hzero.mp h]; decide) fun hc => hc h
    · next h => exact iff_of_true rfl h

end Servers

/-! ## A system with one regular file -/

/-- The calls on a system with one regular file, or none; nothing but its content changes. -/
def regularOS (name : Bytes) : OS RemoteFile where
  isDir _ _ _ := false
  exists' _ s file := file = name ∧ s ≠ .missing
  nonEmpty _ s file := file = name ∧ s.octets ≠ []
  ls _ _ _ _ _ := ([], false)
  open' _ s _ file := file = name ∧ s.readable.isSome
  firstByte _ s mode file := mode ≠ .wronly ∧ file = name ∧ s.octets ≠ []
  readFile _ s _ offset size := s.readable.map fun f => (f.drop offset).take size
  writeFile _ s file offset data :=
    if file = name ∧ s.readable.isSome then (true, .content (store s.octets offset data))
    else (false, s)
  mkdir _ s _ := (false, s)
  rmdir _ s _ := (false, s)
  rename _ s _ _ := (false, s)
  unlink _ s _ := (false, s)
  creat _ s _ _ := (false, s)
  link _ s _ _ := (false, s)
  symlink _ s _ _ := (false, s)
  readlink _ _ _ := none
  chmod _ s _ _ := (false, s)
  chown _ s _ _ := (false, s)
  chgrp _ s _ _ := (false, s)
  truncate _ s file size :=
    if file = name ∧ s.readable.isSome then (true, .content (fetch s.octets 0 (decVal size)))
    else (false, s)
  utime _ s _ _ _ := (false, s)
  df _ _ _ := none
  readFile_le _ s _ offset size data h := by
    obtain ⟨f, -, rfl⟩ := Option.map_eq_some_iff.mp h
    exact List.length_take_le _ _
  df_line := by simp

/-- The commands on the same system. -/
def regularTools (name : Bytes) : ShellOS RemoteFile where
  readable s file := file = name ∧ s.readable.isSome
  writable s file := file = name ∧ s.readable.isSome
  isFile s file := file = name ∧ s ≠ .missing
  isDir _ _ := false
  exists' s file := file = name ∧ s ≠ .missing
  nonEmpty s file := file = name ∧ s.octets ≠ []
  ls _ _ _ _ := ([], false)
  lsPlain _ _ := false
  lsName s file := file = name ∧ s ≠ .missing
  firstByte s file := file = name ∧ s.octets ≠ []
  dd s file bs skip count := if file = name then blocks s.octets bs skip count else []
  ddSync s file bs skip count :=
    if file = name ∧ s.readable.isSome then
      let d := blocks s.octets bs skip count
      (padBlocks bs d, allBlocks bs d = count)
    else ([], false)
  newFile _ _ := true
  tee _ _ data := data
  wc _ _ := true
  head _ _ _ := none
  ddWrite s file bs seek data :=
    if file = name ∧ s.readable.isSome then (true, .content (store s.octets (bs * seek) data))
    else (false, s)
  ddStdin s file seek count :=
    if file = name ∧ s.readable.isSome then
      (none, fun data => .content (store s.octets seek data))
    else (some 0, fun _ => s)
  mkdir s _ := (false, s)
  rmdir s _ := (false, s)
  mv s _ _ := (false, s)
  rm s _ := (false, s)
  clobber s file :=
    if file = name ∧ s.readable.isSome then (true, .content []) else (false, s)
  ln s _ _ := (false, s)
  lnSymbolic s _ _ := (false, s)
  readlink _ _ := none
  lsLink _ _ := ([], true)
  chmod s _ _ := (false, s)
  chown s _ _ := (false, s)
  chgrp s _ _ := (false, s)
  ddTrunc s file bs seek :=
    if file = name ∧ s.readable.isSome ∧ 0 < bs then
      (true, .content (fetch s.octets 0 (bs * seek)))
    else (false, s)
  touch s _ _ _ := (false, s)
  df _ _ := []
  rmTree s _ := s
  head_le := by rintro _ _ _ _ ⟨⟩
  ddStdin_le s file seek count n h := by
    split at h
    · cases h
    · cases h
      exact Nat.zero_le _
  ls_line := by simp
  readlink_line := by rintro _ _ _ ⟨⟩
  lsLink_line := by simp
  df_line := by simp

/-- What is to be read there. -/
def regularView (name : Bytes) (s : RemoteFile) (file : Bytes) : RemoteFile :=
  if file = name then s else .missing

/-- What is in the file. -/
def regularContents (name : Bytes) (s : RemoteFile) (file : Bytes) : Bytes :=
  (regularView name s file).octets

/-- The file is the one with the name. -/
theorem regularView_readable_iff {name : Bytes} {s : RemoteFile} {file f : Bytes} :
    (regularView name s file).readable = some f ↔ file = name ∧ s = .content f := by
  rw [regularView]
  split
  · next h => cases s <;> simp [RemoteFile.readable, h]
  · next h => simp [RemoteFile.readable, h]

theorem regular_regularOS (name : Bytes) :
    (regularOS name).Regular (fun _ => regularView name) (regularContents name) where
  missing {_ s file} h := by
    rw [regularView] at h
    split at h
    · subst h
      simp [regularOS, RemoteFile.readable]
    · next hne => simp [regularOS, hne]
  unreadable {_ s file} h := by
    rw [regularView] at h
    split at h
    · next heq =>
      subst h
      simp [regularOS, RemoteFile.readable, heq]
    · cases h
  content {_ s file f} h := by
    obtain ⟨rfl, rfl⟩ := regularView_readable_iff.mp (congrArg RemoteFile.readable h)
    exact ⟨by simp [regularOS, RemoteFile.readable], fun _ _ => rfl⟩
  written {_ s file offset data} h := by
    simp only [regularOS] at h ⊢
    split at h
    · next hfile =>
      rw [if_pos hfile]
      simp [regularContents, regularView, hfile.1, RemoteFile.octets]
    · cases h
  truncated {_ s file size} h := by
    simp only [regularOS] at h ⊢
    split at h
    · next hfile =>
      rw [if_pos hfile]
      simp [regularContents, regularView, hfile.1, RemoteFile.octets]
    · cases h

theorem regular_regularTools (name : Bytes) :
    (regularTools name).Regular (regularView name) (regularContents name) where
  sync := {
    missing := by
      intro s file bs skip count h
      refine if_neg ?_
      rintro ⟨rfl, hsome⟩
      obtain ⟨f, hf⟩ := Option.isSome_iff_exists.mp hsome
      rw [regularView, if_pos rfl, hf] at h
      cases h
    copy := by
      intro s file f bs skip count h hbs
      obtain ⟨rfl, rfl⟩ := regularView_readable_iff.mp h
      simp [regularTools, RemoteFile.readable, RemoteFile.octets]
    report := by
      intro s file f bs skip count h hbs
      obtain ⟨rfl, rfl⟩ := regularView_readable_iff.mp h
      rw [finds_report_iff (allBlocks_le hbs (length_blocks_le f bs skip count))]
      simp only [regularTools, RemoteFile.readable, RemoteFile.octets, Option.isSome_some, and_self,
        if_true]
      exact decide_eq_true_iff }
  written {s file bs seek data} h := by
    simp only [regularTools] at h ⊢
    split at h
    · next hfile =>
      rw [if_pos hfile]
      simp [regularContents, regularView, hfile.1, RemoteFile.octets]
    · cases h
  writtenStdin {s file seek count data} h _ := by
    simp only [regularTools] at h ⊢
    split at h
    · next hfile =>
      rw [if_pos hfile]
      simp [regularContents, regularView, hfile.1, RemoteFile.octets]
    · cases h
  clobbered {s file} h := by
    simp only [regularTools] at h ⊢
    split at h
    · next hfile =>
      rw [if_pos hfile]
      simp [regularContents, regularView, hfile.1, RemoteFile.octets]
    · cases h
  truncated {s file bs seek} h := by
    simp only [regularTools] at h ⊢
    split at h
    · next hfile =>
      rw [if_pos hfile]
      simp [regularContents, regularView, hfile.1, RemoteFile.octets]
    · cases h

/-- The Perl server in the root directory. -/
def regularPerl (file : RemoteFile) : Perl RemoteFile := ⟨⟨0, 0, [], []⟩, file, [], false, false⟩

/-- The shell server in the root directory. -/
def regularShell (file : RemoteFile) : Shell RemoteFile :=
  ⟨file, [], [], ascii "/tmp/._shfs_.0/", true, true⟩

/-- A page of a small file, and one octet stored into it. -/
theorem servers_agree_small :
    (ReadsAgree
        (((regularShell (.content (ascii "abc"))).runCommand (regularTools (ascii "/a"))
          (Request.read theFile 0 4096 0).name
          ((Request.read theFile 0 4096 0).args.map Word.value)).printed [])
        (((regularPerl (.content (ascii "abc"))).runCommand (regularOS (ascii "/a")) []
          (Request.read theFile 0 4096 0).name
          ((Request.read theFile 0 4096 0).args.map Word.value)).printed [])
        (ascii "abc") (0 : UInt32).toNat (4096 : UInt32).toNat ↔
      ∃ f, RemoteFile.content (ascii "abc") = .content f) ∧
    ∃ p' s', ((regularPerl (.content (ascii "abc"))).runCommand (regularOS (ascii "/a")) []
        (Request.write 4096 theFile 1 1 7).name
        ((Request.write 4096 theFile 1 1 7).args.map Word.value)).returned [88] = some p' ∧
      ((regularShell (.content (ascii "abc"))).runCommand (regularTools (ascii "/a"))
        (Request.write 4096 theFile 1 1 7).name
        ((Request.write 4096 theFile 1 1 7).args.map Word.value)).returned [88] = some s' ∧
      regularContents (ascii "/a") p'.fs (ascii "/a") =
        store (ascii "abc") (1 : UInt32).toNat [88] ∧
      regularContents (ascii "/a") s'.fs (ascii "/a") =
        store (ascii "abc") (1 : UInt32).toNat [88] := by
  have h := servers_agree (regular_regularOS (ascii "/a")) (regular_regularTools (ascii "/a")) []
    (regularPerl (.content (ascii "abc"))) (regularShell (.content (ascii "abc"))) theFile
  exact ⟨h.1 0 4096 _ [] (by decide) (by decide) rfl rfl,
    h.2 4096 1 1 7 [88] (ascii "abc") rfl (by decide) rfl rfl ⟨status REP_PRELIM, by decide⟩
      ⟨status REP_PRELIM, by decide⟩⟩

/-- A page of a file that is not there: the shell server answers with zeros, the Perl server says
COMPLETE at once. -/
theorem not_servers_agree_missing :
    ¬ ReadsAgree
        (((regularShell .missing).runCommand (regularTools (ascii "/a"))
          (Request.read theFile 0 4096 0).name
          ((Request.read theFile 0 4096 0).args.map Word.value)).printed [])
        (((regularPerl .missing).runCommand (regularOS (ascii "/a")) []
          (Request.read theFile 0 4096 0).name
          ((Request.read theFile 0 4096 0).args.map Word.value)).printed [])
        [] (0 : UInt32).toNat (4096 : UInt32).toNat := by
  intro h
  have hshell := (regularShell .missing).reads_fetch (regular_regularTools (ascii "/a")) theFile
    (show (4096 : UInt32) ≠ 0 by decide) (show (0 : UInt32) % 4096 = 0 by decide) []
  obtain ⟨d', hperl, -, -⟩ := h _ hshell
  obtain ⟨f, hf, -⟩ := ((regularPerl .missing).reads_iff (regular_regularOS (ascii "/a")) [] theFile
    0 4096 [] d').mp hperl
  cases hf

/-- A truncation to two octets. -/
theorem trunc_exact_two :
    (Completes (((regularPerl (.content (ascii "abc"))).runCommand (regularOS (ascii "/a")) []
        (Call.trunc theFile 2).name ((Call.trunc theFile 2).args.map Word.value)).printed []) →
      (regularContents (ascii "/a") (.content (ascii "ab")) (ascii "/a") =
          fetch (ascii "abc") 0 (2 : UInt64).toNat ↔
        (2 : UInt64) ≠ 0 ∧ (2 : UInt64).toNat < 2 ^ 32)) ∧
    (Completes (((regularShell (.content (ascii "abc"))).runCommand (regularTools (ascii "/a"))
        (Call.trunc theFile 2).name ((Call.trunc theFile 2).args.map Word.value)).printed []) →
      (regularContents (ascii "/a") (.content (ascii "ab")) (ascii "/a") =
          fetch (ascii "abc") 0 (2 : UInt64).toNat ↔
        (2 : UInt64).toNat < 2 ^ 32)) ∧
    (Completes (((regularPerl (.content (ascii "abc"))).runCommand (regularOS (ascii "/a")) []
        (Call.trunc theFile 2).name ((Call.trunc theFile 2).args.map Word.value)).printed []) →
      Completes (((regularShell (.content (ascii "abc"))).runCommand (regularTools (ascii "/a"))
        (Call.trunc theFile 2).name ((Call.trunc theFile 2).args.map Word.value)).printed []) →
      (regularContents (ascii "/a") (.content (ascii "ab")) (ascii "/a") =
          regularContents (ascii "/a") (.content (ascii "ab")) (ascii "/a") ↔
        (2 : UInt64) ≠ 0)) := by
  have hpret : ((regularPerl (.content (ascii "abc"))).runCommand (regularOS (ascii "/a")) []
      (Call.trunc theFile 2).name ((Call.trunc theFile 2).args.map Word.value)).returned [] =
        some (regularPerl (.content (ascii "ab"))) := rfl
  have hsret : ((regularShell (.content (ascii "abc"))).runCommand (regularTools (ascii "/a"))
      (Call.trunc theFile 2).name ((Call.trunc theFile 2).args.map Word.value)).returned [] =
        some (regularShell (.content (ascii "ab"))) := rfl
  exact trunc_exact_iff (regular_regularOS (ascii "/a")) (regular_regularTools (ascii "/a")) [] _ _
    theFile 2 rfl rfl hpret hsret

/-- A truncation to nothing leaves one octet on the Perl server. -/
theorem not_trunc_exact_zero :
    ¬ ∀ p', ((regularPerl (.content (ascii "abc"))).runCommand (regularOS (ascii "/a")) []
        (Call.trunc theFile 0).name ((Call.trunc theFile 0).args.map Word.value)).returned [] =
          some p' →
      Completes (((regularPerl (.content (ascii "abc"))).runCommand (regularOS (ascii "/a")) []
        (Call.trunc theFile 0).name ((Call.trunc theFile 0).args.map Word.value)).printed []) →
      regularContents (ascii "/a") p'.fs (ascii "/a") = fetch (ascii "abc") 0 0 := by
  intro h
  have heq := h (regularPerl (.content (ascii "a"))) rfl ⟨[], rfl⟩
  revert heq
  decide

end Shfs
