import Shfs.Lib.Loop
import Shfs.Lib.Partial
import Shfs.PerlServer

/-!
# The loops of `s_read` and `s_write`

`OS.readFile` and `OS.writeFile` stand for loops of `sysread` and `syswrite`, which may move fewer
octets than they are asked for. Here are the loops, on `$o`, `$s`, `$result` and `$data`, for every
pattern of partial results (`Partial`).

The loop around `sysread` ends with a call that brings nothing, and has all there is of what was
asked for then (`readAll_correct`). The loop around `syswrite` ends as soon as the octets written
are as many as there were to write (`writeAll_correct`). So either sub moves what it announces
(`perl_moves_announced`), and the subs of the server, which have `OS.readFile` and `OS.writeFile` in
the place of the loops, answer in the same way (`sReadLoop_eq`, `writeAll_eq`).
-/

namespace Shfs

open Lib

/-! ## The loops -/

/-- `sysread(FD, $data, $length, $offset)`: `$result`, `$data` and the file. -/
def sysread (p : Partial) (h : Handle) (data : Bytes) (length offset : ℕ) :
    Option ℕ × Bytes × Handle :=
  match h.read p length with
  | (none, h) => (none, data, h)
  | (some d, h) => (some d.length, fetch data 0 offset ++ d, h)

/-- `syswrite(FD, $data, $length, $offset)`: `$result` and the file. -/
def syswrite (p : Partial) (h : Handle) (data : Bytes) (length offset : ℕ) : Option ℕ × Handle :=
  h.write p ((data.drop offset).take length)

/-- The variables of the subs. -/
structure Transferring : Type where
  o : ℕ
  s : ℕ
  result : Option ℕ
  data : Bytes
  file : Handle

namespace Transferring

/-- `defined $result and $result > 0` -/
def moved (v : Transferring) : Bool := v.result.any (0 < ·)

theorem moved_iff (v : Transferring) : v.moved = true ↔ ∃ n, v.result = some n ∧ 0 < n := by
  unfold moved
  cases v.result <;> simp

theorem not_moved (v : Transferring) (h : v.moved = false) :
    v.result = none ∨ v.result = some 0 := by
  unfold moved at h
  cases hr : v.result with
  | none => exact .inl rfl
  | some n =>
    rw [hr] at h
    have hn : ¬ 0 < n := of_decide_eq_false h
    exact .inr (congrArg some (Nat.eq_zero_of_not_pos hn))

/-- `$o += $result; $s -= $result; $result = sysread(FD, $data, $s, $o)` -/
def readMore (p : Partial) (v : Transferring) : Empty ⊕ Transferring :=
  let n := v.result.getD 0
  let (result, data, file) := sysread p v.file v.data (v.s - n) (v.o + n)
  .inr ⟨v.o + n, v.s - n, result, data, file⟩

/-- `$o += $result; $s -= $result; $result = syswrite(FD, $data, $s, $o)` -/
def writeMore (p : Partial) (v : Transferring) : Empty ⊕ Transferring :=
  let n := v.result.getD 0
  let (result, file) := syswrite p v.file v.data (v.s - n) (v.o + n)
  .inr ⟨v.o + n, v.s - n, result, v.data, file⟩

end Transferring

section Loops

variable (fuel : ℕ) (p : Partial)

/-- The first `sysread` and its loop, for `$size` octets. -/
def readAll (h : Handle) (size : ℕ) : Option Transferring :=
  let (result, data, file) := sysread p h [] size 0
  (loop Transferring.moved (Transferring.readMore p) fuel ⟨0, size, result, data, file⟩).map
    (Sum.elim Empty.elim id)

/-- The first `syswrite` and its loop, for `$size` octets. -/
def writeAll (h : Handle) (data : Bytes) (size : ℕ) : Option Transferring :=
  let (result, file) := syswrite p h data size 0
  (loop (fun v => v.moved && decide (v.o + v.result.getD 0 < size)) (Transferring.writeMore p) fuel
    ⟨0, size, result, data, file⟩).map (Sum.elim Empty.elim id)

end Loops

/-! ## The subs -/

/-- A file, if there is one, and whether the server may open it. -/
structure PerlFile : Type where
  content : Option Bytes
  allowed : Bool
  deriving DecidableEq, Repr

/-- `sysopen(FD, …)` and `sysseek(FD, $off, 0)`. -/
def PerlFile.open (t : PerlFile) (off : ℕ) : Option Handle :=
  if t.allowed then t.content.map fun c => ⟨c, off, 0⟩ else none

/-- A file that cannot be opened: `-e` looks if it is there. -/
def PerlFile.refusal (t : PerlFile) : Bytes := if t.content.isSome then status 501 else status 200

/-- `s_read`: what is printed. -/
def sReadLoop (fuel : ℕ) (p : Partial) (t : PerlFile) (off size : ℕ) : Option Bytes :=
  match t.open off with
  | none => some t.refusal
  | some h =>
    (readAll fuel p h size).map fun v =>
      match v.result with
      | some _ => status 100 ++ (v.data ++ List.replicate (size - v.o) 0) ++ status 200
      | none => status 500

/-- What `s_write` prints, the file, and how far it has read STDIN. -/
structure WriteEnd : Type where
  printed : Bytes
  file : Option Bytes
  consumed : ℕ
  deriving DecidableEq, Repr

/-- `s_write`, with `input` in STDIN. -/
def sWriteLoop (fuel : ℕ) (p stdin : Partial) (t : PerlFile) (input : Bytes) (off size : ℕ) :
    Option WriteEnd :=
  match t.open off with
  | none => some ⟨t.refusal, t.content, 0⟩
  | some h =>
    (readAll fuel stdin ⟨input, 0, 0⟩ size).bind fun v =>
      match v.result with
      | none => some ⟨status 100 ++ status 500, t.content, v.file.pos⟩
      | some _ =>
        (writeAll fuel p h v.data size).map fun w =>
          ⟨status 100 ++ (if w.result.isSome then status 200 else status 500), some w.file.content,
            v.file.pos⟩

/-! ## Reading -/

section Read

variable {p : Partial} {content : Bytes} {off size : ℕ} {v : Transferring}

/-- What holds in front of the condition of the loop. -/
structure Transferring.Reads (p : Partial) (content : Bytes) (off size : ℕ) (v : Transferring) :
    Prop where
  split : v.o + v.s = size
  undefined : v.result = none → ¬ p.Sound
  le : ∀ n, v.result = some n → n ≤ v.s
  data : ∀ n, v.result = some n → v.data = (content.drop off).take (v.o + n) ∧
    v.data.length = v.o + n
  pos : ∀ n, v.result = some n → v.file.content = content ∧ v.file.pos = off + (v.o + n)
  last : v.result = some 0 → v.s = 0 ∨ content.length ≤ off + v.o

variable (p) in
/-- A `sysread` behind octets that are there already. -/
theorem Transferring.Reads.call (h : Handle) {data : Bytes} {o s : ℕ} (hsplit : o + s = size)
    (hcontent : h.content = content) (hpos : h.pos = off + o)
    (hdata : data = (content.drop off).take o) (hlen : data.length = o) :
    (⟨o, s, (sysread p h data s o).1, (sysread p h data s o).2.1, (sysread p h data s o).2.2⟩ :
      Transferring).Reads p content off size := by
  unfold sysread
  rcases hr : h.read p s with ⟨d | d, h'⟩
  · refine ⟨hsplit, fun _ => Handle.read_none (congrArg Prod.fst hr), nofun, nofun, nofun, nofun⟩
  · obtain ⟨hd, hle, hnil, hcontent', hpos'⟩ := Handle.read_some hr
    have hput : fetch data 0 o ++ d = (content.drop off).take (o + d.length) := by
      have hall : fetch data 0 o = data := by rw [← hlen, fetch_all]
      rw [hall, List.take_add, ← hdata, List.drop_drop, ← hpos, ← hcontent, ← hd]
    refine ⟨hsplit, nofun, ?_, ?_, ?_, ?_⟩
    · rintro n ⟨⟩
      exact hle
    · rintro n ⟨⟩
      refine ⟨hput, ?_⟩
      rw [List.length_append, length_fetch]
    · rintro n ⟨⟩
      exact ⟨hcontent'.trans hcontent, by rw [hpos', hpos, Nat.add_assoc]⟩
    · intro hzero
      have hempty : d = [] := List.length_eq_zero_iff.mp (Option.some.inj hzero)
      rw [← hcontent, ← hpos]
      exact hnil hempty

/-- **The loop around `sysread`** ends. It has failed, or there is nothing left to be had of what
was asked for. -/
theorem readAll_correct (p : Partial) (h : Handle) (size : ℕ) {fuel : ℕ} (hfuel : size ≤ fuel) :
    ∃ v, readAll fuel p h size = some v ∧ v.Reads p h.content h.pos size ∧
      (v.result = none ∨ v.result = some 0) := by
  have hstart := Transferring.Reads.call p h (Nat.zero_add size) rfl rfl
    (List.take_zero (l := h.content.drop h.pos)).symm rfl
  have hround : ∀ v : Transferring, v.Reads p h.content h.pos size → v.moved = true →
      Sum.elim (fun _ => False)
        (fun v' => v'.Reads p h.content h.pos size ∧ v'.s < v.s) (v.readMore p) := by
    intro v hv hmoved
    obtain ⟨n, hn, hpos⟩ := v.moved_iff.mp hmoved
    obtain ⟨hdata, hlen⟩ := hv.data n hn
    obtain ⟨hcontent, hplace⟩ := hv.pos n hn
    have hle := hv.le n hn
    have hsplit := hv.split
    have hrest : v.o + n + (v.s - n) = size := by omega
    have hcall := Transferring.Reads.call p v.file hrest hcontent hplace hdata hlen
    unfold Transferring.readMore
    rw [hn, Option.getD_some]
    exact ⟨hcall, show v.s - n < v.s by omega⟩
  have hpositive : ∀ v : Transferring, v.Reads p h.content h.pos size → v.moved = true →
      0 < v.s := by
    intro v hv hmoved
    obtain ⟨n, hn, hpos⟩ := v.moved_iff.mp hmoved
    exact hpos.trans_le (hv.le n hn)
  obtain ⟨r, hr, hend⟩ := loop_correct _ _ Transferring.s hpositive hround hstart hfuel
  cases r with
  | inl e => exact e.elim
  | inr v =>
    obtain ⟨hv, hdone⟩ := hend
    refine ⟨v, ?_, hv, v.not_moved hdone⟩
    unfold readAll
    dsimp only
    rw [hr]
    rfl

end Read

/-! ## Writing -/

section Write

variable {content data : Bytes} {off size : ℕ} {v : Transferring}

/-- What holds in front of the condition of the loop. -/
structure Transferring.Writes (p : Partial) (content data : Bytes) (off : ℕ) (v : Transferring) :
    Prop where
  split : v.o + v.s = data.length
  undefined : v.result = none → ¬ p.Sound
  le : ∀ n, v.result = some n → n ≤ v.s
  same : v.data = data
  file : ∀ n, v.result = some n →
    v.file.content = store content off (data.take (v.o + n)) ∧ v.file.pos = off + (v.o + n)
  last : v.result = some 0 → v.s = 0

/-- A `syswrite` behind octets that are written already. -/
theorem Transferring.Writes.call (p : Partial) (h : Handle) {o s : ℕ} (hsplit : o + s = data.length)
    (hcontent : h.content = store content off (data.take o)) (hpos : h.pos = off + o) :
    (⟨o, s, (syswrite p h data s o).1, data, (syswrite p h data s o).2⟩ :
      Transferring).Writes p content data off := by
  have hrest : (data.drop o).take s = data.drop o := by
    rw [List.take_of_length_le]
    rw [List.length_drop]
    omega
  unfold syswrite
  rw [hrest]
  rcases hw : h.write p (data.drop o) with ⟨k | k, h'⟩
  · exact ⟨hsplit, fun _ => Handle.write_none (congrArg Prod.fst hw), nofun, rfl, nofun, nofun⟩
  · obtain ⟨hle, hnil, hcontent', hpos'⟩ := Handle.write_some hw
    rw [List.length_drop] at hle
    have htake : (data.take o).length = o := List.length_take_of_le (by omega)
    have hlen : data.length - o = s := by omega
    have hboth := store_append content off (data.take o) ((data.drop o).take k)
    rw [htake, ← List.take_add, ← hcontent, ← hpos] at hboth
    refine ⟨hsplit, nofun, ?_, rfl, ?_, fun hzero => ?_⟩
    · rintro n ⟨⟩
      exact hle.trans hlen.le
    · rintro n ⟨⟩
      exact ⟨hcontent'.trans hboth, by rw [hpos', hpos, Nat.add_assoc]⟩
    · have hempty := List.drop_eq_nil_iff.mp (hnil (Option.some.inj hzero))
      dsimp only
      omega

/-- **The loop around `syswrite`** ends. It has failed, which no sound pattern does, or all the
octets are in the file. -/
theorem writeAll_correct (p : Partial) (h : Handle) (data : Bytes) {fuel : ℕ}
    (hfuel : data.length ≤ fuel) :
    ∃ v, writeAll fuel p h data data.length = some v ∧ (v.result = none → ¬ p.Sound) ∧
      (v.result ≠ none → v.file.content = store h.content h.pos data) := by
  have hstart :=
    Transferring.Writes.call p h (Nat.zero_add data.length) (store_nil _ h.pos).symm rfl
  have hround : ∀ v : Transferring, v.Writes p h.content data h.pos →
      (v.moved && decide (v.o + v.result.getD 0 < data.length)) = true →
      Sum.elim (fun _ => False)
        (fun v' => v'.Writes p h.content data h.pos ∧ v'.s < v.s) (v.writeMore p) := by
    intro v hv hmore
    obtain ⟨n, hn, hpos⟩ := v.moved_iff.mp (Bool.and_eq_true_iff.mp hmore).1
    obtain ⟨hcontent, hplace⟩ := hv.file n hn
    have hle := hv.le n hn
    have hsplit := hv.split
    have hrest : v.o + n + (v.s - n) = data.length := by omega
    have hcall := Transferring.Writes.call p v.file hrest hcontent hplace
    unfold Transferring.writeMore
    rw [hn, Option.getD_some, hv.same]
    exact ⟨hcall, show v.s - n < v.s by omega⟩
  have hpositive : ∀ v : Transferring, v.Writes p h.content data h.pos →
      (v.moved && decide (v.o + v.result.getD 0 < data.length)) = true → 0 < v.s := by
    intro v hv hmore
    obtain ⟨n, hn, hpos⟩ := v.moved_iff.mp (Bool.and_eq_true_iff.mp hmore).1
    exact hpos.trans_le (hv.le n hn)
  obtain ⟨r, hr, hend⟩ := loop_correct _ _ Transferring.s hpositive hround hstart hfuel
  cases r with
  | inl e => exact e.elim
  | inr v =>
    obtain ⟨hv, hdone⟩ := hend
    refine ⟨v, ?_, hv.undefined, fun hdefined => ?_⟩
    · unfold writeAll
      dsimp only
      rw [hr]
      rfl
    · obtain ⟨n, hn⟩ := Option.ne_none_iff_exists'.mp hdefined
      have hle := hv.le n hn
      have hsplit := hv.split
      -- the loop has stopped behind a call that moved nothing, which asks for nothing, or with all
      -- octets gone
      have hall : data.length ≤ v.o + n := by
        by_cases hzero : n = 0
        · have hnothing := hv.last (hzero ▸ hn)
          omega
        · have hmoved := v.moved_iff.mpr ⟨n, hn, Nat.pos_of_ne_zero hzero⟩
          rw [hmoved, hn, Bool.true_and, Option.getD_some] at hdone
          exact not_lt.mp (of_decide_eq_false hdone)
      rw [(hv.file n hn).1, List.take_of_length_le hall]

end Write

/-! ## What is moved -/

section Subs

variable {content : Bytes} {off size fuel : ℕ}

/-- The octets that a loop has read, filled up with zeros. -/
theorem Transferring.Reads.filled {p : Partial} {v : Transferring} (h : v.Reads p content off size)
    (hdone : v.result = some 0) :
    v.data ++ List.replicate (size - v.o) 0 = fetch content off size := by
  obtain ⟨hdata, hlen⟩ := h.data 0 hdone
  have hsplit := h.split
  have hlast := h.last hdone
  rw [Nat.add_zero] at hdata hlen
  rw [hdata, List.length_take, List.length_drop] at hlen
  have hall : (content.drop off).take v.o = (content.drop off).take size := by
    rw [List.take_eq_take_iff, List.length_drop]
    omega
  rw [hdata, hall, fetch]
  congr 2
  omega

/-- **`s_read`** answers with one error, or with all the octets. It answers with the octets where
the file may be opened and no `sysread` fails. -/
theorem sReadLoop_answers (p : Partial) (content : Bytes) (allowed : Bool) (off : ℕ)
    (hfuel : size ≤ fuel) :
    ∃ out, sReadLoop fuel p ⟨some content, allowed⟩ off size = some out ∧
      ((∃ code ≥ 500, out = status code) ∨
        out = status 100 ++ fetch content off size ++ status 200) ∧
      (allowed = true → p.Sound → out = status 100 ++ fetch content off size ++ status 200) := by
  cases allowed with
  | false => exact ⟨_, rfl, .inl ⟨501, by decide, rfl⟩, fun h => absurd h Bool.false_ne_true⟩
  | true =>
    obtain ⟨v, hv, hreads, hend⟩ := readAll_correct p ⟨content, off, 0⟩ size hfuel
    have hopen : (⟨some content, true⟩ : PerlFile).open off = some ⟨content, off, 0⟩ := rfl
    rw [sReadLoop, hopen]
    dsimp only
    rw [hv]
    rcases hend with hnone | hsome
    · refine ⟨status 500, ?_, .inl ⟨500, le_rfl, rfl⟩, fun _ hsound =>
        absurd hsound (hreads.undefined hnone)⟩
      rw [Option.map_some, hnone]
    · have hout : status 100 ++ (v.data ++ List.replicate (size - v.o) 0) ++ status 200 =
          status 100 ++ fetch content off size ++ status 200 := by rw [hreads.filled hsome]
      refine ⟨_, ?_, .inr hout, fun _ _ => hout⟩
      rw [Option.map_some, hsome]

/-- **`s_write`** takes its octets off STDIN, and says that they are in the file only if they
are. It says so where the file may be opened and no `syswrite` fails. -/
theorem sWriteLoop_answers (p : Partial) {stdin : Partial} (hstdin : stdin.Sound) (content : Bytes)
    (allowed : Bool) {input : Bytes} (hinput : size ≤ input.length) (off : ℕ)
    (hfuel : size ≤ fuel) :
    ∃ w, sWriteLoop fuel p stdin ⟨some content, allowed⟩ input off size = some w ∧
      (status 100 <+: w.printed → w.consumed = size ∧
        ((w.printed = status 100 ++ status 200 ∧
            w.file = some (store content off (input.take size))) ∨
          w.printed = status 100 ++ status 500)) ∧
      (allowed = true → p.Sound →
        w = ⟨status 100 ++ status 200, some (store content off (input.take size)), size⟩) := by
  cases allowed with
  | false =>
    have hrefused : ¬ status 100 <+: status 501 := by decide
    exact ⟨_, rfl, fun h => absurd h hrefused, fun h => absurd h Bool.false_ne_true⟩
  | true =>
    obtain ⟨v, hv, hreads, hend⟩ := readAll_correct stdin ⟨input, 0, 0⟩ size hfuel
    have hdone : v.result = some 0 := hend.resolve_left fun h => hreads.undefined h hstdin
    have hsplit := hreads.split
    have hlast := hreads.last hdone
    obtain ⟨hdata, hlen⟩ := hreads.data 0 hdone
    obtain ⟨-, hpos⟩ := hreads.pos 0 hdone
    -- all of them have been there
    have ho : v.o = size := by
      rcases hlast with hlast | hlast
      · omega
      · change input.length ≤ 0 + v.o at hlast
        omega
    rw [Nat.add_zero, ho, List.drop_zero] at hdata
    rw [Nat.add_zero, ho, Nat.zero_add] at hpos
    have hsize : v.data.length = size := by rw [hlen, Nat.add_zero, ho]
    obtain ⟨w, hw, hundefined, hwritten⟩ :=
      writeAll_correct p ⟨content, off, 0⟩ v.data (hsize ▸ hfuel)
    rw [hsize] at hw
    have hopen : (⟨some content, true⟩ : PerlFile).open off = some ⟨content, off, 0⟩ := rfl
    rw [sWriteLoop, hopen]
    dsimp only
    rw [hv, Option.bind_some, hdone]
    dsimp only
    rw [hw]
    refine ⟨_, rfl, ?_⟩
    dsimp only
    cases hr : w.result with
    | none => exact ⟨fun _ => ⟨hpos, .inr rfl⟩, fun _ hsound => absurd hsound (hundefined hr)⟩
    | some n =>
      have hfile : w.file.content = store content off (input.take size) := by
        rw [hwritten (hr ▸ Option.some_ne_none n), hdata]
      refine ⟨fun _ => ⟨hpos, .inl ⟨rfl, congrArg some hfile⟩⟩, fun _ _ => ?_⟩
      rw [hfile, hpos]
      rfl

/-- **The announced octets** are moved, whatever the parts in which `sysread` and `syswrite` move
them, and wherever they fail. Where the file may be opened and none of the calls fails, `s_read`
answers with PRELIM, the octets and COMPLETE, and `s_write` takes its octets, puts them into the
file and answers with PRELIM and COMPLETE. -/
theorem perl_moves_announced (content : Bytes) (off : ℕ) (hfuel : size ≤ fuel) :
    (∀ (p : Partial) (allowed : Bool), ∃ out,
      sReadLoop fuel p ⟨some content, allowed⟩ off size = some out ∧
        ((∃ code ≥ 500, out = status code) ∨
          out = status 100 ++ fetch content off size ++ status 200) ∧
        (allowed = true → p.Sound →
          out = status 100 ++ fetch content off size ++ status 200)) ∧
    ∀ (p stdin : Partial) (allowed : Bool) (input : Bytes), stdin.Sound → size ≤ input.length →
      ∃ w, sWriteLoop fuel p stdin ⟨some content, allowed⟩ input off size = some w ∧
        (status 100 <+: w.printed → w.consumed = size ∧
          ((w.printed = status 100 ++ status 200 ∧
              w.file = some (store content off (input.take size))) ∨
            w.printed = status 100 ++ status 500)) ∧
        (allowed = true → p.Sound →
          w = ⟨status 100 ++ status 200, some (store content off (input.take size)), size⟩) :=
  ⟨fun p allowed => sReadLoop_answers p content allowed off hfuel,
    fun p _ allowed _ hstdin hinput =>
      sWriteLoop_answers p hstdin content allowed hinput off hfuel⟩

end Subs

/-! ## What `OS` says of the loops -/

section System

variable {G σ : Type} {srv : Server G (Perl σ)} {os : OS σ} {s : Perl σ} {args : List Bytes}
  {t : PerlFile}

/-- **`s_read` of the server is the loop**: on a system that opens the file like this, and whose
`readFile` is the loop around `sysread`, the answer of `Perl.sRead` is what `sReadLoop` prints. -/
theorem sReadLoop_eq (p : Partial) {fuel : ℕ} (hfuel : decVal (Perl.arg args 2) ≤ fuel)
    (hopen : os.open' s.ids s.fs .rdonly (s.path (Perl.arg args 0)) =
      (t.open (decVal (Perl.arg args 1))).isSome)
    (hexists : os.exists' s.ids s.fs (s.path (Perl.arg args 0)) = t.content.isSome)
    (hread : ∀ h v, t.open (decVal (Perl.arg args 1)) = some h →
      readAll fuel p h (decVal (Perl.arg args 2)) = some v →
      os.readFile s.ids s.fs (s.path (Perl.arg args 0)) (decVal (Perl.arg args 1))
        (decVal (Perl.arg args 2)) = v.result.map fun _ => v.data) :
    sReadLoop fuel p t (decVal (Perl.arg args 1)) (decVal (Perl.arg args 2)) =
      some ((s.sRead os args).wire srv).bytes := by
  unfold sReadLoop Perl.sRead
  dsimp only
  rw [hopen]
  cases hh : t.open (decVal (Perl.arg args 1)) with
  | none =>
    dsimp only [Option.isSome_none]
    rw [if_pos Bool.false_ne_true, Perl.notOpen, hexists, Perl.answer_bytes, PerlFile.refusal]
    cases t.content.isSome <;> rfl
  | some h =>
    obtain ⟨v, hv, hreads, hend⟩ := readAll_correct p h (decVal (Perl.arg args 2)) hfuel
    dsimp only [Option.isSome_some]
    rw [if_neg (by simp), hread h v hh hv, hv]
    rcases hend with hnone | hsome
    · rw [hnone]
      simp [hnone]
    · have hlen := (hreads.data 0 hsome).2
      rw [hsome]
      simp [hsome, hlen]

/-- **`s_write` of the server is the loop**: on a system whose `writeFile` is the loop around
`syswrite`, the server answers behind the octets what `sWriteLoop` prints behind PRELIM. -/
theorem writeAll_eq (p : Partial) {fuel : ℕ} {h : Handle} {data : Bytes}
    (hwrite : ∀ w, writeAll fuel p h data (decVal (Perl.arg args 2)) = some w →
      (os.writeFile s.ids s.fs (s.path (Perl.arg args 0)) (decVal (Perl.arg args 1)) data).1 =
        w.result.isSome) {w : Transferring}
    (hw : writeAll fuel p h data (decVal (Perl.arg args 2)) = some w) :
    ((s.change (os.writeFile s.ids s.fs (s.path (Perl.arg args 0)) (decVal (Perl.arg args 1)) data)
        500).wire srv).bytes = if w.result.isSome then status 200 else status 500 := by
  rw [Perl.change, Perl.answer_bytes, hwrite w hw]
  cases w.result <;> rfl

end System

/-! ### An example -/

/-- One octet at a time. -/
def byOnes : Partial where
  result _ m := some (min m 1)
  le := by
    rintro i m n ⟨⟩
    exact min_le_left ..
  pos := by
    rintro i m n ⟨⟩ hm
    exact lt_min hm Nat.one_pos

theorem byOnes_sound : byOnes.Sound := fun _ _ => Option.some_ne_none _

theorem perl_moves_announced_byOnes :
    sReadLoop 4 byOnes ⟨some (ascii "abc"), true⟩ 1 4 =
      some (status 100 ++ fetch (ascii "abc") 1 4 ++ status 200) ∧
    sWriteLoop 4 byOnes byOnes ⟨some (ascii "abc"), true⟩ (ascii "wxyz") 1 4 =
      some ⟨status 100 ++ status 200, some (store (ascii "abc") 1 ((ascii "wxyz").take 4)), 4⟩ := by
  have h := perl_moves_announced (ascii "abc") 1 (le_refl 4)
  obtain ⟨out, hout, -, hread⟩ := h.1 byOnes true
  obtain ⟨w, hw, -, hwrite⟩ := h.2 byOnes byOnes true (ascii "wxyz") byOnes_sound (by decide)
  rw [hread rfl byOnes_sound] at hout
  rw [hwrite rfl byOnes_sound] at hw
  exact ⟨hout, hw⟩

end Shfs
