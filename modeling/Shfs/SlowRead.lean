import Shfs.Accounting
import Shfs.ShellReplies

/-!
# Slow reads

A slow read is answered with a status line, the number of octets on a line of its own, the octets
and a last status line. `Carries` says that `shell_read` comes back with just these octets, and that
nothing of the answer is left behind them.

The Perl `s_sread` prints the number without a line feed. Whatever the octets are, the line that the
client takes for the number ends in them or behind them, and too little is left for the octets and a
status line (`post_dataReply_short`). The shell server has the line feed; its slow reads are carried
whenever the temporary file takes the octets.
-/

namespace Shfs

open Lib

section Client

variable {G S : Type} {srv : Server G S} {s : S} {w : Wire G S} {info : Info}

/-- The end of a call whose result is looked at. -/
abbrev back {ρ : Type} : Cont ρ (Except Errno ρ × Info) := fun r info => .ret (r, info)

/-- The call comes back with the octets `data`, which are not more than `count`, and with their
number, and nothing of the answer is left. -/
def Carries (srv : Server G S) (s : S) (t : Talk Fault (Except Errno (ℕ × Bytes) × Info))
    (count : ℕ) (data : Bytes) : Prop :=
  data.length ≤ count ∧
    ∃ info w, Steps srv READLNBUF_SIZE ⟨t, [], ⟨.line s srv.init, [], true⟩⟩
        ⟨.ret (.ok (data.length, data), info), [], w⟩ ∧ w.bytes = []

/-- What the client sends, the server reads. -/
theorem run_shellRead (hf : Fresh info) {p : Proc S} {preserveOwn : Bool} {cred : Cred}
    {file : Path} {offset count : UInt32} {ino : UInt64}
    (h : Sent srv s preserveOwn cred (.read file offset count ino) p) :
    (shellRead preserveOwn cred file.text offset count ino info back).run srv READLNBUF_SIZE
        ⟨.line s srv.init, [], true⟩ =
      (readReply count.toNat ino info back).run srv READLNBUF_SIZE (p.wire srv) := by
  obtain ⟨l, hl, words, hscan, rfl⟩ := h
  rw [Request.built, Request.onQuoted_line] at hl
  rw [shellRead, hl, sendLine, sockWrite_clean hf.clean, send, Talk.run, Wire.feed_line_inr hscan]
  rfl

/-- The order in which the two sides take turns does not matter. -/
theorem carries_iff_run (hf : Fresh info) {p : Proc S} {preserveOwn : Bool} {cred : Cred}
    {file : Path} {offset count : UInt32} {ino : UInt64} {data : Bytes}
    (h : Sent srv s preserveOwn cred (.read file offset count ino) p) :
    Carries srv s (shellRead preserveOwn cred file.text offset count ino info back) count.toNat
      data ↔ data.length ≤ count.toNat ∧ ∃ info' w,
        (readReply count.toNat ino info back).run srv READLNBUF_SIZE (p.wire srv) =
          .inl ((.ok (data.length, data), info'), w) ∧ w.bytes = [] := by
  refine and_congr_right fun _ => exists_congr fun info' => exists_congr fun w => ?_
  refine and_congr_left fun _ => ?_
  rw [← run_shellRead hf h]
  exact ⟨fun hsteps => hsteps.run_of_ret, Steps.of_run⟩

/-- The number and the data. -/
theorem post_readReply_prelim (hf : Fresh info) {rest : Bytes} (hw : w.bytes = status 100 ++ rest)
    {ino : UInt64} (hino : ino ≠ 0) (count : ℕ)
    {Q : Except Errno (ℕ × Bytes) × Info → Wire G S → Prop}
    (h : ∀ w' : Wire G S, w'.bytes = rest → ∀ l n, nextLine READLNBUF_SIZE rest = some (l, n) →
      (dataReply (decVal (cstr l) % 2 ^ 32) info back).Post srv READLNBUF_SIZE Q (w'.drop n)) :
    (readReply count ino info back).Post srv READLNBUF_SIZE Q w := by
  refine post_sockReadln_status hf.clean (show 100 < 1000 by decide) hw fun n hn => ?_
  simp only [reply_statusText (show 100 < 2 ^ 32 by decide), if_true, if_pos hino]
  refine post_sockReadln hf.clean fun l m hm => ?_
  rw [hn] at hm
  exact h _ hn l m hm

/-- No part of a status line but the whole is one. -/
theorem reply_drop_status {k : ℕ} (hk : 0 < k) {l : Bytes} {n : ℕ}
    (h : nextLine READLNBUF_SIZE ((status 200).drop k) = some (l, n)) :
    reply (cstr l) ≠ REP_COMPLETE := by
  have hlen : (status 200).length = 8 := length_status (by decide)
  have hle := nextLine_le_length h
  have hpos := nextLine_pos (by decide) h
  rw [List.length_drop, hlen] at hle
  have key : ∀ k ∈ [1, 2, 3, 4, 5, 6, 7],
      (nextLine READLNBUF_SIZE ((status 200).drop k)).map (fun p => reply (cstr p.1)) = some 0 := by
    decide
  have hk7 : k ∈ [1, 2, 3, 4, 5, 6, 7] := by
    simp only [List.mem_cons, List.not_mem_nil, or_false]
    omega
  have := key k hk7
  rw [h] at this
  have hzero : reply (cstr l) = 0 := Option.some.inj this
  rw [hzero]
  decide

/-- **Too little is left** for `n` octets and a status line: the call does not return `n`. -/
theorem post_dataReply_short (hf : Fresh info) (out : Bytes) {c n : ℕ}
    (hw : w.bytes = (out ++ status 200).drop c) (hc : out.length < c + n) (count : ℕ) :
    (dataReply count info back).Post srv READLNBUF_SIZE (fun r _ => ∀ d, r.1 ≠ .ok (n, d)) w := by
  refine post_sockRead hf.clean fun _ => ?_
  refine post_sockReadln hf.clean fun l m hm => Talk.post_ret fun d heq => ?_
  unfold transferResult at heq
  split at heq
  · next hcomplete =>
    obtain rfl : count = n := congrArg Prod.fst (Except.ok.inj heq)
    rw [Wire.drop_bytes, hw, List.drop_drop, List.drop_append,
      List.drop_eq_nil_of_le hc.le, List.nil_append] at hm
    exact reply_drop_status (Nat.sub_pos_of_lt hc) hm hcomplete
  · split at heq
    · cases heq
    · split at heq <;> cases heq

/-- A number that is not the end of its line. -/
theorem length_dec_lt_nextLine {n : ℕ} (hn : n < 2 ^ 32) {rest l : Bytes} {m : ℕ}
    (h : nextLine READLNBUF_SIZE (dec n ++ rest) = some (l, m)) : (dec n).length < m := by
  have hdigits : ∀ b ∈ dec n, decide (b ≠ nl) = true := fun b hb =>
    decide_eq_true (ne_of_isDigit (isDigit_of_mem_dec hb) (by decide))
  rcases nextLine_eq_some h with ⟨rest', heq, hnl, -, rfl⟩ | ⟨-, -, -, rfl⟩
  · have htake : (dec n ++ rest).takeWhile (· ≠ nl) = dec n ++ rest.takeWhile (· ≠ nl) :=
      List.takeWhile_append_of_pos hdigits
    rw [heq, takeWhile_ne_nl hnl] at htake
    rw [htake, List.length_append]
    omega
  · exact (length_dec_le (k := 10) (by decide) (by omega)).trans_lt (by decide)

/-- A number on a line of its own, the octets, and the last status line. -/
theorem run_readReply_counted (hf : Fresh info) {d : Bytes} (hd : d.length < 2 ^ 32)
    (hw : w.bytes = status 100 ++ (dec d.length ++ nl :: (d ++ status 200)))
    {ino : UInt64} (hino : ino ≠ 0) (count : ℕ) :
    ∃ w', (readReply count ino info back).run srv READLNBUF_SIZE w =
      .inl ((.ok (d.length, d), info), w') ∧ w'.bytes = [] := by
  have hdec : ∀ b ∈ dec d.length, isDigit b = true := fun b hb => isDigit_of_mem_dec hb
  have hnl : nl ∉ dec d.length := fun h => absurd (hdec _ h) (by decide)
  have hzero : (0 : Byte) ∉ dec d.length := fun h => absurd (hdec _ h) (by decide)
  have hfit : (dec d.length).length < READLNBUF_SIZE :=
    (length_dec_le (k := 10) (by decide) (by omega)).trans_lt (by decide)
  rw [readReply, run_sockReadln_status hf.clean (by decide) hw]
  simp only [reply_statusText (show 100 < 2 ^ 32 by decide), if_true, if_pos hino]
  have hw₁ := pastStatus_bytes hw
  rw [run_sockReadln_line hf.clean hnl hzero hfit hw₁]
  simp only [decVal_dec_self, Nat.mod_eq_of_lt hd]
  set w₂ := (pastStatus w 100).drop ((dec d.length).length + 1) with hw₂
  have hbytes : w₂.bytes = d ++ status 200 := by
    rw [hw₂, Wire.drop_bytes, hw₁, ← List.singleton_append, ← List.append_assoc]
    exact List.drop_left' (by simp)
  have hall : d.length ≤ w₂.inbox.length := by
    rw [← Wire.length_bytes, hbytes, List.length_append]
    omega
  rw [dataReply, sockRead_clean hf.clean, recv, Talk.run, if_pos hall]
  have hw₃ : (w₂.drop d.length).bytes = status 200 ++ [] := by
    rw [Wire.drop_bytes, hbytes, List.drop_left, List.append_nil]
  have hstored : w₂.bytes.take d.length = d := by rw [hbytes, List.take_left]
  simp only [hstored]
  rw [run_sockReadln_status hf.clean (by decide) hw₃]
  refine ⟨_, ?_, pastStatus_bytes hw₃⟩
  simp only [reply_statusText (show 200 < 2 ^ 32 by decide), transferResult, if_true]
  rfl

end Client

/-! ## The Perl server -/

/-- The words of a slow read. -/
theorem Request.args_slow (file : Path) (offset count : UInt32) {ino : UInt64} (h : ino ≠ 0) :
    (Request.read file offset count ino).args.map Word.value =
      [file.text, dec offset.toNat, dec count.toNat, dec (readBlocks offset count).1.toNat,
        dec (readBlocks offset count).2.1.toNat, dec (readBlocks offset count).2.2.toNat,
        dec ino.toNat] := by
  rw [Request.args, if_pos h]
  rfl

section Perl

variable {G σ : Type} {srv : Server G (Perl σ)} {info : Info}

/-- **`s_sread` never carries its data**: of a file that has been read, the client does not get the
octets with their number, whatever the number is. -/
theorem Perl.post_sSread (os : OS σ) (s : Perl σ) (hf : Fresh info) (file : Path)
    (offset count : UInt32) {ino : UInt64} (hino : ino ≠ 0) {data : Bytes}
    (hopen : os.open' s.ids s.fs .rdonly (s.path file.text) = true)
    (hread : os.readFile s.ids s.fs (s.path file.text) offset.toNat count.toNat = some data) :
    (readReply count.toNat ino info back).Post srv READLNBUF_SIZE
      (fun r _ => ∀ d, r.1 ≠ .ok (data.length, d))
      ((s.sSread os ((Request.read file offset count ino).args.map Word.value)).wire srv) := by
  have hlen : data.length < 2 ^ 32 :=
    (os.readFile_le _ _ _ _ _ _ hread).trans_lt count.toNat_lt
  have hsub : s.sSread os ((Request.read file offset count ino).args.map Word.value) =
      .print false (status 100)
        (.print false (dec data.length) (.print true data (s.answer 200))) := by
    rw [Request.args_slow file offset count hino]
    unfold Perl.sSread
    simp only [Perl.arg, List.getD_cons_zero, List.getD_cons_succ, decVal_dec_self, hopen,
      not_true_eq_false, if_false, hread]
  have hw : ((s.sSread os ((Request.read file offset count ino).args.map Word.value)).wire
      srv).bytes = status 100 ++ (dec data.length ++ (data ++ status 200)) := by
    rw [hsub]
    simp only [Proc.wire_print_bytes, Perl.answer_bytes]
  refine post_readReply_prelim hf hw hino _ fun w' hw' l n hn => ?_
  refine post_dataReply_short (c := n) hf (dec data.length ++ data) ?_ ?_ _
  · rw [Wire.drop_bytes, hw', List.append_assoc]
  · have := length_dec_lt_nextLine hlen hn
    rw [List.length_append]
    omega

end Perl

/-! ## The shell server -/

/-- `dd` copies at most what it is asked for, and what `tee` leaves in its file is a first part of
what it was given. -/
structure ShellOS.Copies {σ : Type} (os : ShellOS σ) : Prop where
  dd_le : ∀ s file bs skip count, (os.dd s file bs skip count).length ≤ bs * count
  tee_prefix : ∀ s file data, os.tee s file data <+: data

section Shell

variable {G σ : Type} {srv : Server G (Shell σ)} {info : Info} {os : ShellOS σ} {s : Shell σ}

/-- What `dd` gets of the file. -/
def Shell.slowData (os : ShellOS σ) (s : Shell σ) (file : Path) (offset count : UInt32) : Bytes :=
  let (bs, skip, blocks) := readBlocks offset count
  os.dd s.fs (s.path file.text) bs.toNat skip.toNat blocks.toNat

/-- There is a place for the temporary file, and it takes the octets. -/
def Shell.SlowReady (os : ShellOS σ) (s : Shell σ) (ino : UInt64) (data : Bytes) : Prop :=
  let tmp := s.tmpFile (dec ino.toNat)
  s.tmp ≠ [] ∧ os.newFile s.fs tmp = true ∧ os.wc s.fs tmp = true ∧ os.tee s.fs tmp data = data

/-- `s_sread`, asked for something. -/
theorem Shell.sSread_eq (os : ShellOS σ) (s : Shell σ) (file : Path) (offset : UInt32)
    {count : UInt32} (hcount : count ≠ 0) {ino : UInt64} (hino : ino ≠ 0) :
    let tmp := s.tmpFile (dec ino.toNat)
    let data := s.slowData os file offset count
    s.sSread os ((Request.read file offset count ino).args.map Word.value) =
      if s.tmp = [] then .done s
      else if os.newFile s.fs tmp = true ∧ os.wc s.fs tmp = true then
        .print false (status 100) (.print false (dec data.length ++ [nl])
          (.print true (os.tee s.fs tmp data) (s.answer 200)))
      else s.answer (if os.isFile s.fs (s.path file.text) then 501 else 503) := by
  have hzero : dec count.toNat ≠ ascii "0" := by
    rw [Ne, dec_eq_zero_iff]
    exact fun h => hcount (UInt32.toNat_inj.mp h)
  intro tmp data
  rw [Request.args_slow file offset count hino, Shell.sSread]
  simp only [Shell.arg, List.getD_cons_zero, List.getD_cons_succ, decVal_dec_self, if_neg hzero]
  cases hnew : os.newFile s.fs (s.tmpFile (dec ino.toNat)) with
  | false => simp [tmp]
  | true =>
    cases hwc : os.wc s.fs (s.tmpFile (dec ino.toNat)) with
    | false => simp
    | true =>
      simp only [tmp, and_self, if_true]
      rfl

theorem Shell.length_slowData_le (hos : os.Copies) (file : Path) (offset : UInt32) {count : UInt32}
    (hcount : count ≠ 0) : (s.slowData os file offset count).length ≤ count.toNat := by
  obtain ⟨-, -, hmul, -⟩ := readBlocks_spec offset hcount
  rw [← hmul]
  exact hos.dd_le _ _ _ _ _

/-- An answer without data. -/
theorem post_readReply_code {S : Type} {srv : Server G S} {w : Wire G S}
    (hf : Fresh info) {code : ℕ} (hcode : code = 501 ∨ code = 503) (hw : w.bytes = status code)
    (count : ℕ) (ino : UInt64) :
    (readReply count ino info back).Post srv READLNBUF_SIZE (fun r _ => ∀ d, r.1 ≠ .ok d) w := by
  rcases hcode with rfl | rfl
  · refine post_sockReadln_last hf.clean (by decide) hw fun n _ => ?_
    simp only [reply_statusText (show 501 < 2 ^ 32 by decide)]
    exact Talk.post_ret fun d => by rintro ⟨⟩
  · refine post_sockReadln_last hf.clean (by decide) hw fun n _ => ?_
    simp only [reply_statusText (show 503 < 2 ^ 32 by decide)]
    exact Talk.post_ret fun d => by rintro ⟨⟩

/-- **`s_sread` carries its data** when the temporary file does: `wc` counts what is in the file,
and `cat` prints that much. -/
theorem Shell.run_sSread_iff (hos : os.Copies) (hf : Fresh info) (file : Path)
    (offset : UInt32) {count : UInt32} (hcount : count ≠ 0) {ino : UInt64} (hino : ino ≠ 0) :
    let data := s.slowData os file offset count
    (∃ info' w,
        (readReply count.toNat ino info back).run srv READLNBUF_SIZE
            ((s.sSread os ((Request.read file offset count ino).args.map Word.value)).wire srv) =
          .inl ((.ok (data.length, data), info'), w) ∧ w.bytes = []) ↔
      s.SlowReady os ino data := by
  intro data
  have hlen : data.length < 2 ^ 32 :=
    (s.length_slowData_le hos file offset hcount).trans_lt count.toNat_lt
  rw [s.sSread_eq os file offset hcount hino]
  constructor
  · rintro ⟨info', w, hrun, -⟩
    split at hrun
    · -- nothing is printed
      have hpost : (readReply count.toNat ino info back).Post srv READLNBUF_SIZE (fun _ _ => False)
          ((Proc.done s).wire srv) := post_sockReadln hf.clean fun l n hn => by cases hn
      exact (hpost _ _ hrun).elim
    · next htmp =>
      split at hrun
      · next hnew =>
        refine ⟨htmp, hnew.1, hnew.2, ?_⟩
        by_contra hne
        -- a tee that has not written everything leaves a front of the data, and the client waits
        -- for the rest behind it
        have hshort : (os.tee s.fs (s.tmpFile (dec ino.toNat)) data).length < data.length := by
          have hfront := hos.tee_prefix s.fs (s.tmpFile (dec ino.toNat)) data
          exact lt_of_le_of_ne hfront.length_le fun h => hne (hfront.eq_of_length h)
        have hpost : (readReply count.toNat ino info back).Post srv READLNBUF_SIZE
            (fun r _ => ∀ d, r.1 ≠ .ok (data.length, d))
            ((Proc.print false (status 100) (.print false (dec data.length ++ [nl])
              (.print true (os.tee s.fs (s.tmpFile (dec ino.toNat)) data) (s.answer 200)))).wire
                srv) := by
          have hw : ((Proc.print false (status 100) (.print false (dec data.length ++ [nl])
              (.print true (os.tee s.fs (s.tmpFile (dec ino.toNat)) data) (s.answer 200)))).wire
                srv).bytes = status 100 ++ (dec data.length ++ nl ::
                  (os.tee s.fs (s.tmpFile (dec ino.toNat)) data ++ status 200)) := by
            simp only [Proc.wire_print_bytes, Shell.answer_bytes, List.append_assoc,
              List.singleton_append]
          refine post_readReply_prelim hf hw hino _ fun w' hw' l n hn => ?_
          have hlt := length_dec_lt_nextLine hlen hn
          refine post_dataReply_short (c := n) hf
            (dec data.length ++ nl :: os.tee s.fs (s.tmpFile (dec ino.toNat)) data) ?_ ?_ _
          · rw [Wire.drop_bytes, hw', List.append_assoc, List.cons_append]
          · rw [List.length_append, List.length_cons]
            omega
        exact hpost _ _ hrun _ rfl
      -- without the temporary file the server answers with an error
      · refine absurd rfl (post_readReply_code hf ?_ (s.answer_bytes srv _) _ _ _ _ hrun _)
        split
        · exact .inl rfl
        · exact .inr rfl
  · rintro ⟨htmp, hnew, hwc, htee⟩
    rw [if_neg htmp, if_pos ⟨hnew, hwc⟩, htee]
    obtain ⟨w', hrun, hnil⟩ := run_readReply_counted (w := (Proc.print false (status 100)
      (.print false (dec data.length ++ [nl]) (.print true data (s.answer 200)))).wire srv) hf hlen
      (by simp) hino count.toNat
    exact ⟨info, w', hrun, hnil⟩

end Shell

/-! ## Both servers -/

/-- **Slow reads**: the Perl server has never carried what it has read, and the shell server does if
its temporary file takes the octets. `s_sread` of the Perl server prints the count without a line
feed, so the client takes the count and the octets for one line. -/
theorem slow_reads_carry_iff {G σ : Type} (preserveOwn : Bool) (cred : Cred) {info : Info}
    (hf : Fresh info) (file : Path) (offset : UInt32) {count : UInt32} (hcount : count ≠ 0)
    {ino : UInt64} (hino : ino ≠ 0) :
    let args := (Request.read file offset count ino).args.map Word.value
    let call := shellRead preserveOwn cred file.text offset count ino info back
    (∀ (srv : Server G (Perl σ)) (os : OS σ) (s s' : Perl σ) (data : Bytes),
      Sent srv s preserveOwn cred (.read file offset count ino) (s'.sSread os args) →
      os.open' s'.ids s'.fs .rdonly (s'.path file.text) = true →
      os.readFile s'.ids s'.fs (s'.path file.text) offset.toNat count.toNat = some data →
        ¬ Carries srv s call count.toNat data) ∧
    ∀ (srv : Server G (Shell σ)) (os : ShellOS σ) (s s' : Shell σ), os.Copies →
      Sent srv s preserveOwn cred (.read file offset count ino) (s'.sSread os args) →
        (Carries srv s call count.toNat (s'.slowData os file offset count) ↔
          s'.SlowReady os ino (s'.slowData os file offset count)) := by
  refine ⟨?_, ?_⟩
  · intro srv os s s' data hsent hopen hread
    rw [carries_iff_run hf hsent]
    rintro ⟨-, info', w, hrun, -⟩
    exact s'.post_sSread os hf file offset count hino hopen hread _ _ hrun _ rfl
  · intro srv os s s' hos hsent
    rw [carries_iff_run hf hsent,
      and_iff_right (Shell.length_slowData_le hos file offset hcount)]
    exact Shell.run_sSread_iff hos hf file offset hcount hino

/-- A system with a device that yields three octets. -/
def deviceOS : OS Unit :=
  { oneFile [] with
    open' := fun _ _ _ _ => true
    readFile := fun _ _ _ off size => some (((ascii "abc").drop off).take size)
    readFile_le := by
      rintro _ _ _ off size _ ⟨⟩
      exact List.length_take_le _ _ }

/-- The shell server, with a reader of plain words in front. -/
def plainShell (os : ShellOS Unit) : Server Getline (Shell Unit) where
  init := .init
  step := getlineStep
  dispatch s words :=
    match words with
    | [] => .done s
    | cmd :: args => s.runCommand os cmd args

theorem copies_oneFile (name content : Bytes) : (oneFileTools name content).Copies where
  dd_le _ file bs skip count := by
    change (if file = name then blocks content bs skip count else []).length ≤ _
    split
    · exact length_blocks_le content bs skip count
    · exact Nat.zero_le _
  tee_prefix _ _ data := List.prefix_refl data

/-- A slow read of three octets, from both servers. -/
theorem slow_read_three :
    ¬ Carries (perlServer deviceOS []) rootPerl
        (shellRead false ⟨0, []⟩ fileA.text 0 4096 7 freshInfo back) 4096 (ascii "abc") ∧
      Carries (plainShell (oneFileTools (ascii "/a") (ascii "abc"))) rootShell
        (shellRead false ⟨0, []⟩ fileA.text 0 4096 7 freshInfo back) 4096 (ascii "abc") := by
  have hcount : (4096 : UInt32) ≠ 0 := by decide
  have hino : (7 : UInt64) ≠ 0 := by decide
  have h := slow_reads_carry_iff (G := Getline) (σ := Unit) false ⟨0, []⟩ fresh_freshInfo fileA 0
    hcount hino
  have hline : ((Request.read fileA 0 4096 7).built false ⟨0, []⟩).line =
      some (ascii "s_sread '/a' 0 4096 4096 0 1 7\n") := by decide
  refine ⟨h.1 (perlServer deviceOS []) deviceOS rootPerl rootPerl (ascii "abc")
    ⟨_, hline, _, rfl, rfl⟩ rfl rfl, ?_⟩
  exact (h.2 (plainShell (oneFileTools (ascii "/a") (ascii "abc")))
    (oneFileTools (ascii "/a") (ascii "abc")) rootShell rootShell (copies_oneFile _ _)
    ⟨_, hline, _, rfl, rfl⟩).mpr ⟨by decide, rfl, rfl, rfl⟩

/-- The Perl server prints `3abc### 200`, and the client waits for three octets behind it. -/
theorem not_carries_three :
    ¬ Carries (perlServer deviceOS []) rootPerl
      (shellRead false ⟨0, []⟩ fileA.text 0 4096 7 freshInfo back) 4096 (ascii "abc") := by
  rintro ⟨-, info, w, hsteps, -⟩
  have hrun := hsteps.run_of_ret
  have hwait : ((shellRead false ⟨0, []⟩ fileA.text 0 4096 7 freshInfo back).run
      (perlServer deviceOS []) READLNBUF_SIZE ⟨.line rootPerl .init, [], true⟩).isLeft = false :=
        rfl
  rw [show (⟨.line rootPerl .init, [], true⟩ : Wire Getline (Perl Unit)) =
    (⟨.line rootPerl (perlServer deviceOS []).init, [], true⟩ : Wire Getline (Perl Unit)).feed
      (perlServer deviceOS []) [] from rfl, hrun] at hwait
  cases hwait

end Shfs
