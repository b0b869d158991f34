import Shfs.Vfs

/-!
# What a successful stat has found

`shell_stat` is `do_ls` with a place for the entry, which is assigned from every line that has nine
columns and does not stand for `.` or `..`. The result does not say whether there was one:
`REP_COMPLETE` gives 0, and so does an empty line, since 0 is then what `sock_readln` returns.

`shellStatResult` keeps what has been assigned, if anything has. A stat that ends well has found
something exactly if there is an entry in front of the end (`shellStat_assigns_iff`). The operations
read a variable that has not been assigned then: their `shellStat` is this one with a variable
behind it (`shellStat_eq`), and after a silent reply it hands on what the variable has held
(`Silent.shellStat`).
-/

namespace Shfs

open Lib

/-! ## A stat -/

/-- The lines of a reply, and the error of `sock_readln` behind them. -/
structure StatReply : Type where
  lines : List Bytes
  lost : Errno
  deriving DecidableEq, Repr

/-- The reply, with what is in `sockbuf` behind a line: `strncpy` fills it up. -/
def StatReply.listing (r : StatReply) : Listing :=
  ⟨r.lines, fun s => List.replicate (SOCKBUF_SIZE - 1 - s.length) 0, r.lost⟩

section Stat

variable (fmask : UInt16) (clock : Clock)

/-- `*entry = fattr`, for a line of a listing. -/
def assign (l : Listing) (entry : Option Fattr) (s : Bytes) : Option Fattr × Bool :=
  (((lsEntry fmask clock (s ++ 0 :: l.residue s)).map Prod.snd).or entry, true)

/-- The loop of `do_ls` for a stat: its result, and what `*entry` is afterwards. -/
def statLoop (l : Listing) (entry : Option Fattr) : Except Errno Unit × Option Fattr :=
  lsLoop (assign fmask clock l) l.lost l.lines entry

/-- `shell_stat`: its result, and what it has assigned. `answer` is an error if the command does not
get to the server. -/
def shellStatResult (name : Bytes) (answer : Except Errno StatReply) :
    Except Errno Unit × Option Fattr :=
  match doLsCmd true name with
  | none => (.error .enametoolong, none)
  | some _ =>
    match answer with
    | .error e => (.error e, none)
    | .ok r => statLoop fmask clock r.listing none

end Stat

section Operations

variable {fmask : UInt16} {clock : Clock}

variable (fmask clock) in
/-- The two accumulators of the loop side by side. -/
theorem lsLoop_getD (l : Listing) (fattr : Fattr) (lines : List Bytes) (entry : Option Fattr) :
    lsLoop
        (fun fattr s =>
          (((lsEntry fmask clock (s ++ 0 :: l.residue s)).map Prod.snd).getD fattr, true))
        l.lost lines (entry.getD fattr) =
      ((lsLoop (assign fmask clock l) l.lost lines entry).1,
        (lsLoop (assign fmask clock l) l.lost lines entry).2.getD fattr) := by
  induction lines generalizing entry with
  | nil => rfl
  | cons s lines ih =>
    unfold lsLoop
    by_cases hs : s = []
    · rw [if_pos hs, if_pos hs]
    · rw [if_neg hs, if_neg hs]
      cases lsResult (reply s) with
      | some result => rfl
      | none =>
        have hstep : ((lsEntry fmask clock (s ++ 0 :: l.residue s)).map Prod.snd).getD
            (entry.getD fattr) = (assign fmask clock l entry s).1.getD fattr := by
          unfold assign
          cases lsEntry fmask clock (s ++ 0 :: l.residue s) <;> rfl
        simp only [assign, if_true]
        rw [hstep]
        exact ih _

/-- **A stat of the operations** goes on with what its variable has held if nothing is assigned. -/
theorem readStat_eq (fattr : Fattr) (l : Listing) :
    readStat fmask clock fattr l =
      (statLoop fmask clock l none).1.map fun _ => (statLoop fmask clock l none).2.getD fattr := by
  have h := lsLoop_getD fmask clock l fattr l.lines none
  rw [Option.getD_none] at h
  rw [readStat, h]
  rfl

/-- **The stat of the operations**, on a server that answers so, returns the result of
`shellStatResult`, and the entry that has been assigned or else what the variable has held. -/
theorem shellStat_eq {τ : Type} {sb : SuperBlock τ} {name : Bytes} {w : World τ}
    (answer : Except Errno StatReply) (h : ∀ c, doLsCmd true name = some c →
      (sb.host.listing c w.far.server).1 = answer.map StatReply.listing) (fattr : Fattr) :
    (shellStat sb name fattr w).1 =
      (shellStatResult sb.fmask sb.clock name answer).1.map fun _ =>
        (shellStatResult sb.fmask sb.clock name answer).2.getD fattr := by
  unfold shellStat World.send issue shellStatResult
  cases hc : doLsCmd true name with
  | none => rfl
  | some c =>
    dsimp only
    rw [h c hc]
    cases answer with
    | error e => rfl
    | ok r => exact readStat_eq fattr r.listing

end Operations

/-! ## What is behind a line -/

/-- NULs behind the one that ends a line are not looked at. -/
theorem parseDirFrom_padding (n : ℕ) (s : Bytes) (phase : DirPhase) (cols : List Bytes)
    (text : Bytes) (device : Bool) :
    parseDirFrom phase cols text device (s ++ 0 :: List.replicate n 0) =
      parseDirFrom phase cols text device (s ++ [0]) := by
  induction s generalizing phase cols text device with
  | nil =>
    have hzeros : ∀ cols : List Bytes,
        parseDirFrom .space cols [] device (List.replicate n 0) = cols := by
      intro cols
      cases n <;> rfl
    cases phase with
    | space => rfl
    | column => rfl
    | devBlanks =>
      exact hzeros (cols ++ [text])
    | devNumber =>
      exact hzeros (cols ++ [text])
  | cons b s ih =>
    have hcstr : cstr (b :: (s ++ 0 :: List.replicate n 0)) = cstr (b :: (s ++ [0])) := by
      rw [← List.cons_append, ← List.cons_append, cstr, cstr, List.takeWhile_append,
        List.takeWhile_append]
      rfl
    cases phase <;> simp only [List.cons_append, parseDirFrom, ih, hcstr]

/-- **An entry** is one by the line alone: the NULs with which `strncpy` has filled up the buffer
are not looked at. -/
theorem lsEntry_padding (fmask : UInt16) (clock : Clock) (s : Bytes) (n : ℕ) :
    lsEntry fmask clock (s ++ 0 :: List.replicate n 0) = lsEntry fmask clock (s ++ [0]) := by
  have hparse : parseDir (s ++ 0 :: List.replicate n 0) = parseDir (s ++ [0]) :=
    parseDirFrom_padding n s _ _ _ _
  have hoctets : ∀ i, ((s ++ 0 :: List.replicate n 0).dropWhile (· = sp)).getD i 0 =
      ((s ++ [0]).dropWhile (· = sp)).getD i 0 := by
    intro i
    have hzero : decide ((0 : Byte) = sp) = false := by decide
    rw [List.dropWhile_append, List.dropWhile_append, List.dropWhile_cons, List.dropWhile_cons,
      hzero]
    split
    · exact getD_append_zeros [0] n i
    · rw [← List.singleton_append, ← List.append_assoc]
      exact getD_append_zeros _ n i
  simp only [lsEntry, hparse, hoctets]

/-! ## The end of a reply -/

/-- The loop goes on behind the line. -/
def GoesOn (s : Bytes) : Prop := s ≠ [] ∧ lsResult (reply s) = none

/-- The line ends the loop, and the result is 0. -/
def EndsWell (s : Bytes) : Prop := s = [] ∨ lsResult (reply s) = some (.ok ())

instance (s : Bytes) : Decidable (GoesOn s) := inferInstanceAs (Decidable (_ ∧ _))

section Assigns

variable (fmask : UInt16) (clock : Clock)

/-- The attributes in a line, if it has nine columns, and a name that is not `.` or `..`. -/
def lineAttr (s : Bytes) : Option Fattr := (lsEntry fmask clock (s ++ [0])).map Prod.snd

/-- The reply ends well, without an entry before that: each line in front of the end goes on, and
none of them has nine columns. -/
def Silent (lines : List Bytes) : Prop :=
  ∃ pre s post, lines = pre ++ s :: post ∧ (∀ t ∈ pre, GoesOn t ∧ lineAttr fmask clock t = none) ∧
    EndsWell s

/-- If the stat ends well, its entry is that of a line with nine columns. Where there is none, a
caller that goes on with the entry reads a variable that nobody has assigned. -/
def Assigns (name : Bytes) (answer : Except Errno StatReply) : Prop :=
  ∀ entry, shellStatResult fmask clock name answer = (.ok (), entry) →
    ∃ r s fattr, answer = .ok r ∧ s ∈ r.lines ∧ (parseDir (s ++ [0])).length = DIR_COLS ∧
      lineAttr fmask clock s = some fattr ∧ entry = some fattr

variable {fmask clock}

theorem lineAttr_columns {s : Bytes} {fattr : Fattr} (h : lineAttr fmask clock s = some fattr) :
    (parseDir (s ++ [0])).length = DIR_COLS := by
  by_contra hne
  unfold lineAttr lsEntry at h
  dsimp only at h
  rw [if_pos hne] at h
  cases h

/-- A line of the reply is looked at as it is. -/
theorem assign_listing (r : StatReply) (entry : Option Fattr) (s : Bytes) :
    assign fmask clock r.listing entry s = ((lineAttr fmask clock s).or entry, true) := by
  unfold assign lineAttr StatReply.listing
  rw [lsEntry_padding]

/-- **Where the entry is from**, when the loop ends well: no line has had one, and it is the one
from before, or it is the one of some line. -/
theorem lsLoop_assign (r : StatReply) {lines : List Bytes} {entry entry' : Option Fattr}
    (h : lsLoop (assign fmask clock r.listing) r.lost lines entry = (.ok (), entry')) :
    (Silent fmask clock lines ∧ entry' = entry) ∨
      ∃ s ∈ lines, ∃ fattr, lineAttr fmask clock s = some fattr ∧ entry' = some fattr := by
  induction lines generalizing entry with
  | nil => cases h
  | cons s lines ih =>
    unfold lsLoop at h
    by_cases hs : s = []
    · rw [if_pos hs] at h
      exact .inl ⟨⟨[], s, lines, rfl, nofun, .inl hs⟩, (Prod.mk.inj h).2.symm⟩
    · rw [if_neg hs] at h
      cases hcode : lsResult (reply s) with
      | some result =>
        rw [hcode] at h
        obtain ⟨rfl, rfl⟩ := Prod.mk.inj h
        exact .inl ⟨⟨[], s, lines, rfl, nofun, .inr hcode⟩, rfl⟩
      | none =>
        rw [hcode] at h
        simp only [assign_listing, if_true] at h
        rcases ih h with ⟨⟨pre, t, post, rfl, hpre, hend⟩, hentry⟩ | ⟨t, ht, hentry⟩
        · cases hattr : lineAttr fmask clock s with
          | none =>
            rw [hattr] at hentry
            refine .inl ⟨⟨s :: pre, t, post, rfl, ?_, hend⟩, hentry⟩
            intro u hu
            rcases List.mem_cons.mp hu with rfl | hu
            · exact ⟨⟨hs, hcode⟩, hattr⟩
            · exact hpre u hu
          | some fattr =>
            rw [hattr] at hentry
            exact .inr ⟨s, List.mem_cons_self .., fattr, hattr, hentry⟩
        · exact .inr ⟨t, List.mem_cons_of_mem _ ht, hentry⟩

/-- A silent reply ends well, and nothing is assigned. -/
theorem Silent.lsLoop (r : StatReply) {lines : List Bytes} (h : Silent fmask clock lines) :
    Shfs.lsLoop (assign fmask clock r.listing) r.lost lines none = (.ok (), none) := by
  obtain ⟨pre, s, post, rfl, hpre, hend⟩ := h
  induction pre with
  | nil =>
    rw [List.nil_append, Shfs.lsLoop]
    by_cases hs : s = []
    · rw [if_pos hs]
    · obtain hcode := hend.resolve_left hs
      rw [if_neg hs, hcode]
  | cons t pre ih =>
    obtain ⟨⟨ht, hcode⟩, hattr⟩ := hpre t (List.mem_cons_self ..)
    rw [List.cons_append, Shfs.lsLoop, if_neg ht, hcode]
    simp only [assign_listing, hattr, if_true]
    exact ih fun u hu => hpre u (List.mem_cons_of_mem _ hu)

/-- **A successful stat has a result** exactly if the reply to it is not silent. After a silent
reply, which ends well before any line has nine columns, the caller's variable is as it was, and
nothing tells the caller. -/
theorem shellStat_assigns_iff (name : Bytes) (answer : Except Errno StatReply) :
    Assigns fmask clock name answer ↔
      ∀ r, doLsCmd true name ≠ none → answer = .ok r → ¬ Silent fmask clock r.lines := by
  unfold Assigns shellStatResult
  cases hc : doLsCmd true name with
  | none => exact ⟨fun _ r h => absurd rfl h, fun _ entry h => by cases h⟩
  | some c =>
    cases answer with
    | error e => exact ⟨fun _ r _ h => (by cases h), fun _ entry h => by cases h⟩
    | ok r =>
      dsimp only
      constructor
      · rintro h _ - ⟨⟩ hsilent
        obtain ⟨_, _, _, -, -, -, -, hentry⟩ := h none (hsilent.lsLoop r)
        cases hentry
      · intro h entry hloop
        rcases lsLoop_assign r hloop with ⟨hsilent, -⟩ | ⟨s, hs, fattr, hattr, rfl⟩
        · exact absurd hsilent (h r (Option.some_ne_none c) rfl)
        · exact ⟨r, s, fattr, rfl, hs, lineAttr_columns hattr, hattr, rfl⟩

/-- **After a silent reply** a stat of the operations ends well, with what the variable has held.
The operations go on with it, since the result is all that they look at. -/
theorem Silent.shellStat {τ : Type} {sb : SuperBlock τ} {name : Bytes} {r : StatReply} {w : World τ}
    (hname : doLsCmd true name ≠ none) (h : ∀ c, doLsCmd true name = some c →
      (sb.host.listing c w.far.server).1 = .ok r.listing)
    (hsilent : Silent sb.fmask sb.clock r.lines) (fattr : Fattr) :
    (Shfs.shellStat sb name fattr w).1 = .ok fattr := by
  have hloop : statLoop sb.fmask sb.clock r.listing none = (.ok (), none) := hsilent.lsLoop r
  rw [shellStat_eq (.ok r) h]
  unfold shellStatResult
  cases hc : doLsCmd true name with
  | none => exact absurd hc hname
  | some c =>
    dsimp only
    rw [hloop]
    rfl

end Assigns

/-- The reply is only a status line. -/
theorem not_shellStat_assigns :
    ¬ Assigns 0xFFFF ⟨2003, 0, fun _ _ _ _ _ => 0⟩ (ascii "/a")
      (.ok ⟨[ascii "### 200"], .eio⟩) := by
  intro h
  obtain ⟨_, _, _, -, -, -, -, hentry⟩ := h none (by rfl)
  cases hentry

end Shfs
