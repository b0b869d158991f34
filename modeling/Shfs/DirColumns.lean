import Shfs.Listing

/-!
# Where `parse_dir` goes

The columns that `parse_dir` returns are pointers into `sockbuf`, and it ends them by storing NULs
there. `parseDirAt` goes over the octets of the buffer with the position of each: the result is
where the columns start, where a NUL has been stored, and the last position that has been looked at.

The position moves on after each octet, also after one of the loops over the second number of a
device has come to the end of the line. `inside_iff` says that this is the only way out of the line.
-/

namespace Shfs

open Lib

/-- The variables of `parse_dir`: where it is in its loops, `col`, of which there are `c`, `start`
and `device`. -/
structure DirVars : Type where
  phase : DirPhase
  col : List ℕ
  start : ℕ
  device : Bool
  deriving DecidableEq, Repr

/-- The variables at the start. -/
def DirVars.init : DirVars := ⟨.space, [], 0, false⟩

/-- `(*s == 'b')||(*s == 'c')` -/
def deviceOctet (b : Byte) : Bool := b = 98 || b = 99

/-- What is done with the octet `b` at the position `s`; the flag says that a NUL is stored there.
`none` is the end. -/
def DirVars.turn (v : DirVars) (s : ℕ) (b : Byte) : Option (DirVars × Bool) :=
  match v.phase with
  | .space =>
    if b = 0 ∨ v.col.length = DIR_COLS then none
    else if b = sp then
      some ({ v with start := if v.col.length ≠ DIR_NAME then s + 1 else v.start }, false)
    else
      some (⟨.column, v.col ++ [v.start], v.start,
        v.device || v.col.length = DIR_PERM && deviceOctet b⟩, false)
  | .column =>
    if b = 0 ∨ v.col.length = DIR_COLS then none
    else if b = sp then
      if v.col.length - 1 = DIR_SIZE ∧ v.device then some ({ v with phase := .devBlanks }, false)
      else some ({ v with phase := .space, start := s + 1 }, true)
    else some (v, false)
  | .devBlanks =>
    if b = sp then some (v, false)
    else if b = 0 then some ({ v with phase := .space, start := s + 1 }, true)
    else some ({ v with phase := .devNumber }, false)
  | .devNumber =>
    if b = sp ∨ b = 0 then some ({ v with phase := .space, start := s + 1 }, true)
    else some (v, false)

/-- What `parse_dir` has done. -/
structure DirScan : Type where
  col : List ℕ
  cuts : List ℕ
  last : ℕ
  deriving DecidableEq, Repr

/-- The loop of `parse_dir`, from the position `s` on. -/
def parseDirAt (v : DirVars) (s : ℕ) : Bytes → DirScan
  | [] => ⟨v.col, [], s⟩
  | b :: bs =>
    match v.turn s b with
    | none => ⟨v.col, [], s⟩
    | some (v, cut) =>
      let r := parseDirAt v (s + 1) bs
      { r with cuts := if cut then s :: r.cuts else r.cuts }

/-- What `parse_dir` can do with an octet of the line. -/
inductive DirVars.Turns (v : DirVars) (s : ℕ) : Byte → DirVars → Bool → Prop where
  | blank (hphase : v.phase = .space) :
    Turns v s sp { v with start := if v.col.length ≠ DIR_NAME then s + 1 else v.start } false
  | start {b : Byte} (hphase : v.phase = .space) (hcount : v.col.length ≠ DIR_COLS) (hsp : b ≠ sp) :
    Turns v s b ⟨.column, v.col ++ [v.start], v.start,
      v.device || v.col.length = DIR_PERM && deviceOctet b⟩ false
  | inside {b : Byte} (hphase : v.phase = .column) (hsp : b ≠ sp) : Turns v s b v false
  | stop (hphase : v.phase = .column) (hdev : ¬ (v.col.length - 1 = DIR_SIZE ∧ v.device)) :
    Turns v s sp { v with phase := .space, start := s + 1 } true
  | device (hphase : v.phase = .column) (hdev : v.col.length - 1 = DIR_SIZE ∧ v.device) :
    Turns v s sp { v with phase := .devBlanks } false
  | devBlank (hphase : v.phase = .devBlanks) : Turns v s sp v false
  | devStart {b : Byte} (hphase : v.phase = .devBlanks) (hsp : b ≠ sp) :
    Turns v s b { v with phase := .devNumber } false
  | devInside {b : Byte} (hphase : v.phase = .devNumber) (hsp : b ≠ sp) : Turns v s b v false
  | devStop (hphase : v.phase = .devNumber) :
    Turns v s sp { v with phase := .space, start := s + 1 } true

/-- Inside the line nothing else is done. -/
theorem DirVars.turns {v v' : DirVars} {s : ℕ} {b : Byte} {cut : Bool} (hb : b ≠ 0)
    (ht : v.turn s b = some (v', cut)) : v.Turns s b v' cut := by
  -- the phase says which of the four loops reads the octet, and the tests of that loop decide the
  -- rest
  cases hphase : v.phase with
  | space =>
    simp only [turn, hphase, hb, false_or] at ht
    split at ht
    · cases ht
    rename_i hcount
    split at ht
    · rename_i hsp
      obtain ⟨rfl, rfl⟩ := Prod.mk.inj (Option.some.inj ht)
      rw [hsp, ← hphase]
      exact .blank hphase
    · rename_i hsp
      obtain ⟨rfl, rfl⟩ := Prod.mk.inj (Option.some.inj ht)
      exact .start hphase hcount hsp
  | column =>
    simp only [turn, hphase, hb, false_or] at ht
    split at ht
    · cases ht
    split at ht
    · rename_i hsp
      rw [hsp]
      split at ht
      · rename_i hdev
        obtain ⟨rfl, rfl⟩ := Prod.mk.inj (Option.some.inj ht)
        exact .device hphase hdev
      · rename_i hdev
        obtain ⟨rfl, rfl⟩ := Prod.mk.inj (Option.some.inj ht)
        exact .stop hphase hdev
    · rename_i hsp
      obtain ⟨rfl, rfl⟩ := Prod.mk.inj (Option.some.inj ht)
      exact .inside hphase hsp
  | devBlanks =>
    simp only [turn, hphase, if_neg hb] at ht
    split at ht
    · rename_i hsp
      obtain ⟨rfl, rfl⟩ := Prod.mk.inj (Option.some.inj ht)
      rw [hsp]
      exact .devBlank hphase
    · rename_i hsp
      obtain ⟨rfl, rfl⟩ := Prod.mk.inj (Option.some.inj ht)
      exact .devStart hphase hsp
  | devNumber =>
    simp only [turn, hphase, hb, or_false] at ht
    split at ht
    · rename_i hsp
      obtain ⟨rfl, rfl⟩ := Prod.mk.inj (Option.some.inj ht)
      rw [hsp]
      exact .devStop hphase
    · rename_i hsp
      obtain ⟨rfl, rfl⟩ := Prod.mk.inj (Option.some.inj ht)
      exact .devInside hphase hsp

/-! ## Staying inside the line -/

/-- The column that starts at `p` has been ended in front of `p'`. -/
def EndedBefore (cuts : List ℕ) (p p' : ℕ) : Prop := ∃ c ∈ cuts, p < c ∧ c < p'

/-- There is an octet in the column that starts at `p` which is not a blank: the name keeps the
blanks in front of it. -/
def NonEmpty (text : Bytes) (cuts : List ℕ) (p : ℕ) : Prop :=
  ∃ q b, p ≤ q ∧ text[q]? = some b ∧ b ≠ sp ∧ ∀ c ∈ cuts, c < p ∨ q < c

/-- The positions are inside the line or that of its NUL, and the columns are fields of it, one
behind the other. -/
structure Inside (line : Bytes) (r : DirScan) : Prop where
  reads : r.last ≤ line.length
  writes : ∀ c ∈ r.cuts, c ≤ line.length
  count : r.col.length ≤ DIR_COLS
  nonEmpty : ∀ p ∈ r.col, NonEmpty line r.cuts p
  ended : r.col.Pairwise (EndedBefore r.cuts)

/-- The columns start at increasing positions. -/
theorem Inside.increasing {line : Bytes} {r : DirScan} (h : Inside line r) :
    r.col.Pairwise (· < ·) :=
  h.ended.imp fun ⟨_, _, hp, hp'⟩ => hp.trans hp'

theorem EndedBefore.append {cuts : List ℕ} {p p' : ℕ} (h : EndedBefore cuts p p') (cs : List ℕ) :
    EndedBefore (cuts ++ cs) p p' := by
  obtain ⟨c, hc, hpc, hcp⟩ := h
  exact ⟨c, List.mem_append_left _ hc, hpc, hcp⟩

theorem EndedBefore.trans_le {cuts : List ℕ} {p p' q : ℕ} (h : EndedBefore cuts p p')
    (hq : p' ≤ q) :
    EndedBefore cuts p q := by
  obtain ⟨c, hc, hpc, hcp⟩ := h
  exact ⟨c, hc, hpc, hcp.trans_le hq⟩

/-- More of the line does not matter. -/
theorem NonEmpty.mono {line line' : Bytes} {cuts : List ℕ} {p : ℕ} (h : NonEmpty line cuts p)
    (hline : line <+: line') : NonEmpty line' cuts p := by
  obtain ⟨q, b, hpq, hq, hb, hcuts⟩ := h
  obtain ⟨t, rfl⟩ := hline
  refine ⟨q, b, hpq, ?_, hb, hcuts⟩
  rw [List.getElem?_append_left (List.getElem?_eq_some_iff.mp hq).1, hq]

/-- A NUL behind what has been read does not matter. -/
theorem NonEmpty.cut {line : Bytes} {cuts : List ℕ} {p : ℕ} (h : NonEmpty line cuts p) :
    NonEmpty line (cuts ++ [line.length]) p := by
  obtain ⟨q, b, hpq, hq, hb, hcuts⟩ := h
  refine ⟨q, b, hpq, hq, hb, ?_⟩
  intro c hc
  rcases List.mem_append.mp hc with hc | hc
  · exact hcuts c hc
  · right
    rw [List.mem_singleton.mp hc]
    exact (List.getElem?_eq_some_iff.mp hq).1

/-- What holds of the variables and the NULs that have been stored, behind the part `p` of a
line. -/
structure DirVars.Placed (v : DirVars) (p : Bytes) (cuts : List ℕ) : Prop where
  start : v.start ≤ p.length
  before : ∀ c ∈ cuts, c < v.start
  count : v.col.length ≤ DIR_COLS
  nonEmpty : ∀ c ∈ v.col, NonEmpty p cuts c
  ended : v.col.Pairwise (EndedBefore cuts)
  space : v.phase = .space → ∀ c ∈ v.col, EndedBefore cuts c v.start
  column : v.phase ≠ .space → v.start < p.length ∧ ∀ c ∈ v.col, c ≤ v.start

namespace DirVars

variable {v v' : DirVars} {p : Bytes} {cuts : List ℕ} {b : Byte} {cut : Bool}

theorem Placed.init : init.Placed [] [] where
  start := le_rfl
  before := by simp
  count := Nat.zero_le _
  nonEmpty := by simp [DirVars.init]
  ended := .nil
  space := by simp [DirVars.init]
  column h := absurd rfl h

/-- The octet changes nothing but where the blanks end. -/
theorem Placed.skip (h : v.Placed p cuts) (b : Byte) : v.Placed (p ++ [b]) cuts where
  start := by
    rw [List.length_append]
    exact h.start.trans (Nat.le_add_right ..)
  before := h.before
  count := h.count
  nonEmpty c hc := (h.nonEmpty c hc).mono (List.prefix_append ..)
  ended := h.ended
  space := h.space
  column hphase := by
    rw [List.length_append]
    exact ⟨(h.column hphase).1.trans_le (Nat.le_add_right ..), (h.column hphase).2⟩

/-- The blanks in front of a column. -/
theorem Placed.blank (h : v.Placed p cuts) (hphase : v.phase = .space) (b : Byte) :
    { v with start := p.length + 1 }.Placed (p ++ [b]) cuts where
  start := by simp
  before c hc := (h.before c hc).trans_le (h.start.trans (Nat.le_succ _))
  count := h.count
  nonEmpty := (h.skip b).nonEmpty
  ended := h.ended
  space _ c hc := (h.space hphase c hc).trans_le (h.start.trans (Nat.le_succ _))
  column hne := absurd hphase hne

/-- A column starts. -/
theorem Placed.begin (h : v.Placed p cuts) (hphase : v.phase = .space)
    (hcount : v.col.length ≠ DIR_COLS) (hb : b ≠ sp) (device : Bool) :
    (⟨.column, v.col ++ [v.start], v.start, device⟩ : DirVars).Placed (p ++ [b]) cuts where
  start := (h.skip b).start
  before := h.before
  count := by
    rw [List.length_append, List.length_singleton]
    exact Nat.lt_of_le_of_ne h.count hcount
  nonEmpty c hc := by
    rcases List.mem_append.mp hc with hc | hc
    · exact (h.skip b).nonEmpty c hc
    · rw [List.mem_singleton.mp hc]
      exact ⟨p.length, b, h.start, List.getElem?_concat_length, hb,
        fun c hc => Or.inl (h.before c hc)⟩
  ended := by
    refine List.pairwise_append.mpr ⟨h.ended, List.pairwise_singleton .., ?_⟩
    intro c hc c' hc'
    rw [List.mem_singleton.mp hc']
    exact h.space hphase c hc
  space hne := by cases hne
  column _ := by
    refine ⟨by simpa using Nat.lt_succ_of_le h.start, ?_⟩
    intro c hc
    rcases List.mem_append.mp hc with hc | hc
    · obtain ⟨_, _, hlt, hlt'⟩ := h.space hphase c hc
      exact (hlt.trans hlt').le
    · exact (List.mem_singleton.mp hc).le

/-- A NUL is stored behind the column. -/
theorem Placed.end_column (h : v.Placed p cuts) (hphase : v.phase ≠ .space) (b : Byte) :
    { v with phase := .space, start := p.length + 1 }.Placed (p ++ [b]) (cuts ++ [p.length]) where
  start := by simp
  before c hc := by
    rcases List.mem_append.mp hc with hc | hc
    · exact (h.before c hc).trans_le (h.start.trans (Nat.le_succ _))
    · exact (List.mem_singleton.mp hc).trans_lt (Nat.lt_succ_self _)
  count := h.count
  nonEmpty c hc := (h.nonEmpty c hc).cut.mono (List.prefix_append ..)
  ended := h.ended.imp fun hc => hc.append _
  space _ c hc :=
    ⟨p.length, List.mem_append_right _ (List.mem_singleton_self _),
      ((h.column hphase).2 c hc).trans_lt (h.column hphase).1, Nat.lt_succ_self _⟩
  column hne := absurd rfl hne

/-- The loops over the second number of a device. -/
theorem Placed.phase (h : v.Placed p cuts) {phase : DirPhase} (hphase : v.phase ≠ .space)
    (hphase' : phase ≠ .space) : { v with phase := phase }.Placed p cuts where
  start := h.start
  before := h.before
  count := h.count
  nonEmpty := h.nonEmpty
  ended := h.ended
  space hne := absurd hne hphase'
  column _ := h.column hphase

/-- The columns stay inside the part of the line that has been read. -/
theorem Placed.turn (h : v.Placed p cuts) (ht : v.Turns p.length b v' cut) :
    v'.Placed (p ++ [b]) (if cut then cuts ++ [p.length] else cuts) := by
  cases ht with
  | blank hphase =>
    split
    · exact h.blank hphase sp
    · exact h.skip sp
  | start hphase hcount hsp => exact h.begin hphase hcount hsp _
  | inside | devBlank | devInside => exact h.skip _
  | stop hphase | devStop hphase => exact h.end_column (by rw [hphase]; simp) sp
  | device hphase | devStart hphase =>
    exact (h.phase (by rw [hphase]; simp) (by simp)).skip _

end DirVars

/-! ## What ends a line in the loops of a device -/

/-- The words between the blanks. -/
def dirFields (line : Bytes) : List Bytes := (line.splitOn sp).filter (· ≠ [])

/-- There is nothing, or a blank at the end. -/
def Blank (line : Bytes) : Prop := ∀ b ∈ line.getLast?, b = sp

instance (line : Bytes) : Decidable (Blank line) := inferInstanceAs (Decidable (∀ _ ∈ _, _))

/-- The line of a device, for `parse_dir`: its first octet is a `b` or a `c`. -/
def isDevice (line : Bytes) : Bool := (line.find? (· ≠ sp)).any deviceOctet

/-- The line of a device ends in the blanks in front of its second number or in that number. -/
def EndsInNumber (line : Bytes) : Prop :=
  isDevice line ∧ ((dirFields line).length = 5 ∧ Blank line ∨
    (dirFields line).length = 6 ∧ ¬ Blank line)

instance (line : Bytes) : Decidable (EndsInNumber line) := inferInstanceAs (Decidable (_ ∧ _))

section Fields

variable {p : Bytes} {b : Byte}

theorem blank_concat : Blank (p ++ [b]) ↔ b = sp := by
  simp [Blank]

/-- The word at the end, which is empty behind a blank, goes on with what follows. -/
theorem splitOn_last (p : Bytes) : ∃ ws w, (Blank p ↔ w = []) ∧
    ∀ t, sp ∉ t → (p ++ t).splitOn sp = ws ++ [w ++ t] := by
  induction p using List.reverseRecOn with
  | nil => exact ⟨[], [], by simp [Blank], fun t ht => List.splitOn_eq_singleton ht⟩
  | append_singleton p b ih =>
    obtain ⟨ws, w, hblank, hmore⟩ := ih
    by_cases hb : b = sp
    · refine ⟨p.splitOn sp, [], by simp [blank_concat, hb], ?_⟩
      intro t ht
      rw [hb, List.append_assoc, List.singleton_append, List.splitOn_append_cons_self,
        List.splitOn_eq_singleton ht, List.nil_append]
    · refine ⟨ws, w ++ [b], by simp [blank_concat, hb], ?_⟩
      intro t ht
      rw [List.append_assoc, hmore, List.append_assoc]
      simpa [Ne.symm hb] using ht

theorem dirFields_sp : dirFields (p ++ [sp]) = dirFields p := by
  rw [dirFields, List.splitOn_append_cons_self, List.splitOn_nil, List.filter_append]
  exact List.append_nil _

theorem length_dirFields_start (hp : Blank p) (hb : b ≠ sp) :
    (dirFields (p ++ [b])).length = (dirFields p).length + 1 := by
  obtain ⟨ws, w, hblank, hmore⟩ := splitOn_last p
  obtain rfl := hblank.mp hp
  have hsplit := hmore [] (List.not_mem_nil)
  rw [List.append_nil] at hsplit
  simp [dirFields, hsplit, hmore [b] (by simpa using hb.symm)]

theorem length_dirFields_inside (hp : ¬ Blank p) (hb : b ≠ sp) :
    (dirFields (p ++ [b])).length = (dirFields p).length := by
  obtain ⟨ws, w, hblank, hmore⟩ := splitOn_last p
  have hsplit := hmore [] (List.not_mem_nil)
  rw [List.append_nil] at hsplit
  simp [dirFields, hsplit, hmore [b] (by simpa using hb.symm), mt hblank.mpr hp]

/-- Fields are not lost. -/
theorem length_dirFields_le (p t : Bytes) :
    (dirFields p).length ≤ (dirFields (p ++ t)).length := by
  induction t using List.reverseRecOn with
  | nil => rw [List.append_nil]
  | append_singleton t b ih =>
    rw [← List.append_assoc]
    refine ih.trans ?_
    by_cases hb : b = sp
    · rw [hb, dirFields_sp]
    · by_cases hp : Blank (p ++ t)
      · rw [length_dirFields_start hp hb]
        exact Nat.le_succ _
      · rw [length_dirFields_inside hp hb]

theorem length_dirFields_pos (hp : ¬ Blank p) : 0 < (dirFields p).length := by
  obtain ⟨ws, w, hblank, hmore⟩ := splitOn_last p
  have hsplit := hmore [] (List.not_mem_nil)
  rw [List.append_nil, List.append_nil] at hsplit
  simp [dirFields, hsplit, mt hblank.mpr hp]

/-- Without a field there are only blanks. -/
theorem find_sp_iff : p.find? (· ≠ sp) = none ↔ (dirFields p).length = 0 := by
  induction p using List.reverseRecOn with
  | nil => simp [dirFields]
  | append_singleton p b ih =>
    rw [List.find?_append, Option.or_eq_none_iff, ih]
    by_cases hb : b = sp
    · rw [hb, dirFields_sp]
      simp
    · have hfind : [b].find? (· ≠ sp) ≠ none := by simp [hb]
      have hpos : (dirFields (p ++ [b])).length ≠ 0 :=
        Nat.ne_of_gt (length_dirFields_pos (mt blank_concat.mp hb))
      simp only [hfind, hpos, and_false]

/-- Only the first octet of the fields counts. -/
theorem isDevice_concat (hb : b ≠ sp) : isDevice (p ++ [b]) =
    (isDevice p || (dirFields p).length = 0 && deviceOctet b) := by
  rw [isDevice, isDevice, List.find?_append]
  cases hfind : p.find? (· ≠ sp) with
  | none => simp [find_sp_iff.mp hfind, hb]
  | some c =>
    have hpos : (dirFields p).length ≠ 0 := by
      intro h0
      rw [find_sp_iff.mpr h0] at hfind
      cases hfind
    simp [hpos]

theorem isDevice_more (hp : 0 < (dirFields p).length) (hb : b ≠ sp) :
    isDevice (p ++ [b]) = isDevice p := by
  rw [isDevice_concat hb, decide_eq_false hp.ne', Bool.false_and, Bool.or_false]

theorem isDevice_sp : isDevice (p ++ [sp]) = isDevice p := by
  rw [isDevice, isDevice, List.find?_append]
  cases p.find? (· ≠ sp) <;> simp

end Fields

/-! ## The count of the columns -/

/-- How many columns there are behind the part `p` of a line: as many as it has fields, or one less
once the second number of a device has come. -/
def DirVars.Counted (v : DirVars) (p : Bytes) : Prop :=
  v.device = isDevice p ∧
  match v.phase with
  | .space => Blank p ∧
    (v.col.length = (dirFields p).length ∧ (v.device → v.col.length ≤ 4) ∨
      v.device ∧ v.col.length + 1 = (dirFields p).length ∧ 5 ≤ v.col.length)
  | .column => ¬ Blank p ∧ 0 < v.col.length ∧
    (v.col.length = (dirFields p).length ∧ (v.device → v.col.length ≤ 5) ∨
      v.device ∧ v.col.length + 1 = (dirFields p).length ∧ 6 ≤ v.col.length)
  | .devBlanks => Blank p ∧ v.device ∧ v.col.length = 5 ∧ (dirFields p).length = 5
  | .devNumber => ¬ Blank p ∧ v.device ∧ v.col.length = 5 ∧ (dirFields p).length = 6

namespace DirVars

variable {v v' : DirVars} {p : Bytes} {b : Byte} {cut : Bool} {s : ℕ}

theorem Counted.init : init.Counted [] :=
  ⟨rfl, by simp [Blank], Or.inl ⟨rfl, by simp [DirVars.init]⟩⟩

/-- The columns are counted as the fields are. -/
theorem Counted.turn (h : v.Counted p) (ht : v.Turns s b v' cut) : v'.Counted (p ++ [b]) := by
  obtain ⟨hdev, h⟩ := h
  cases ht with
  | blank hphase =>
    simp only [hphase] at h
    refine ⟨hdev.trans isDevice_sp.symm, ?_⟩
    simp only [hphase]
    rw [dirFields_sp]
    exact ⟨blank_concat.mpr rfl, h.2⟩
  | start hphase hcount hsp =>
    simp only [hphase] at h
    obtain ⟨hblank, h⟩ := h
    refine ⟨?_, mt blank_concat.mp hsp, by simp, ?_⟩
    · rw [isDevice_concat hsp, hdev]
      -- there is no column if and only if there is no field
      have hnone : v.col.length = DIR_PERM ↔ (dirFields p).length = 0 := by
        rcases h with ⟨hcol, -⟩ | ⟨-, hcol, hfive⟩
        · rw [hcol]
        · change v.col.length = 0 ↔ _
          omega
      simp only [hnone]
    · rw [length_dirFields_start hblank hsp, List.length_append, List.length_singleton]
      rcases h with ⟨hcol, hfour⟩ | ⟨hd, hcol, hfive⟩
      · left
        refine ⟨congrArg (· + 1) hcol, fun hd => ?_⟩
        rw [Bool.or_eq_true, Bool.and_eq_true] at hd
        rcases hd with hd | ⟨hzero, -⟩
        · exact Nat.succ_le_succ (hfour hd)
        · rw [of_decide_eq_true hzero]
          exact Nat.le_add_left 1 4
      · right
        exact ⟨by rw [hd, Bool.true_or], congrArg (· + 1) hcol, Nat.succ_le_succ hfive⟩
  | inside hphase hsp =>
    simp only [hphase] at h
    refine ⟨hdev.trans (isDevice_more (length_dirFields_pos h.1) hsp).symm, ?_⟩
    simp only [hphase]
    rw [length_dirFields_inside h.1 hsp]
    exact ⟨mt blank_concat.mp hsp, h.2⟩
  | stop hphase hstop =>
    simp only [hphase] at h
    obtain ⟨-, hpos, h⟩ := h
    refine ⟨hdev.trans isDevice_sp.symm, blank_concat.mpr rfl, ?_⟩
    rw [dirFields_sp]
    refine h.imp (fun ⟨hcol, hfive⟩ => ⟨hcol, fun hd => ?_⟩) fun ⟨hd, hcol, hsix⟩ =>
      ⟨hd, hcol, (Nat.le_succ 5).trans hsix⟩
    have hne : v.col.length - 1 ≠ 4 := fun hc => hstop ⟨hc, hd⟩
    have hle := hfive hd
    show v.col.length ≤ 4
    omega
  | device hphase hdevice =>
    simp only [hphase] at h
    obtain ⟨-, hpos, h⟩ := h
    refine ⟨hdev.trans isDevice_sp.symm, blank_concat.mpr rfl, hdevice.2, ?_⟩
    have hcol : v.col.length = 5 := by
      have hfour : v.col.length - 1 = 4 := hdevice.1
      omega
    refine ⟨hcol, ?_⟩
    rw [dirFields_sp]
    rcases h with ⟨hk, -⟩ | ⟨-, -, hsix⟩
    · exact hk.symm.trans hcol
    · exact absurd hsix (by rw [hcol]; exact Nat.not_succ_le_self 5)
  | devBlank hphase =>
    simp only [hphase] at h
    refine ⟨hdev.trans isDevice_sp.symm, ?_⟩
    simp only [hphase]
    rw [dirFields_sp]
    exact ⟨blank_concat.mpr rfl, h.2⟩
  | devStart hphase hsp =>
    simp only [hphase] at h
    have hpos : 0 < (dirFields p).length := by
      rw [h.2.2.2]
      exact Nat.succ_pos 4
    refine ⟨hdev.trans (isDevice_more hpos hsp).symm, mt blank_concat.mp hsp, ?_⟩
    rw [length_dirFields_start h.1 hsp]
    exact ⟨h.2.1, h.2.2.1, congrArg (· + 1) h.2.2.2⟩
  | devInside hphase hsp =>
    simp only [hphase] at h
    refine ⟨hdev.trans (isDevice_more (length_dirFields_pos h.1) hsp).symm, ?_⟩
    simp only [hphase]
    rw [length_dirFields_inside h.1 hsp]
    exact ⟨mt blank_concat.mp hsp, h.2⟩
  | devStop hphase =>
    simp only [hphase] at h
    obtain ⟨-, hd, hcol, hfields⟩ := h
    refine ⟨hdev.trans isDevice_sp.symm, blank_concat.mpr rfl, Or.inr ⟨hd, ?_, hcol.ge⟩⟩
    rw [dirFields_sp, hfields]
    exact congrArg (· + 1) hcol

/-- At the end of a line it is in one of the loops of a device if that is how the line ends. -/
theorem Counted.endsInNumber_iff (h : v.Counted p) :
    EndsInNumber p ↔ v.phase = .devBlanks ∨ v.phase = .devNumber := by
  obtain ⟨hdev, h⟩ := h
  rw [EndsInNumber, ← hdev]
  cases hphase : v.phase with
  | space =>
    simp only [hphase] at h
    obtain ⟨hblank, h⟩ := h
    refine iff_of_false ?_ (by simp)
    rintro ⟨hd, ⟨hk, -⟩ | ⟨-, hne⟩⟩
    · rcases h with ⟨hcol, hfour⟩ | ⟨-, hcol, hfive⟩
      · have hle := hfour hd
        omega
      · omega
    · exact hne hblank
  | column =>
    simp only [hphase] at h
    obtain ⟨hblank, -, h⟩ := h
    refine iff_of_false ?_ (by simp)
    rintro ⟨hd, ⟨-, hb⟩ | ⟨hk, -⟩⟩
    · exact hblank hb
    · rcases h with ⟨hcol, hfive⟩ | ⟨-, hcol, hsix⟩
      · have hle := hfive hd
        omega
      · omega
  | devBlanks =>
    simp only [hphase] at h
    simp [h]
  | devNumber =>
    simp only [hphase] at h
    simp [h]

/-- With all columns there are too many fields for that. -/
theorem Counted.le_fields (h : v.Counted p) : v.col.length ≤ (dirFields p).length := by
  obtain ⟨-, h⟩ := h
  cases hphase : v.phase with
  | space =>
    simp only [hphase] at h
    rcases h.2 with ⟨hcol, -⟩ | ⟨-, hcol, -⟩
    · exact hcol.le
    · exact hcol ▸ Nat.le_succ _
  | column =>
    simp only [hphase] at h
    rcases h.2.2 with ⟨hcol, -⟩ | ⟨-, hcol, -⟩
    · exact hcol.le
    · exact hcol ▸ Nat.le_succ _
  | devBlanks | devNumber =>
    simp only [hphase] at h
    omega

end DirVars

theorem not_endsInNumber_of_lt {line : Bytes} (h : 6 < (dirFields line).length) :
    ¬ EndsInNumber line := by
  rintro ⟨-, ⟨hfive, -⟩ | ⟨hsix, -⟩⟩
  · omega
  · omega

/-! ## The whole line -/

theorem le_last_parseDirAt (v : DirVars) (s : ℕ) (buf : Bytes) : s ≤ (parseDirAt v s buf).last := by
  induction buf generalizing v s with
  | nil => exact le_rfl
  | cons b bs ih =>
    rw [parseDirAt]
    split
    · exact le_rfl
    · exact (Nat.le_succ s).trans (ih ..)

/-- Where the loop has stopped without more. -/
theorem DirVars.Placed.inside {v : DirVars} {p : Bytes} {cuts : List ℕ} (h : v.Placed p cuts)
    (rest : Bytes) : Inside (p ++ rest) ⟨v.col, cuts ++ [], p.length⟩ := by
  have hle : p.length ≤ (p ++ rest).length := by simp
  rw [List.append_nil]
  exact ⟨hle, fun c hc => (h.before c hc).le.trans (h.start.trans hle), h.count,
    fun c hc => (h.nonEmpty c hc).mono (List.prefix_append ..), h.ended⟩

/-- All columns have been found. -/
theorem DirVars.turn_none {v : DirVars} {s : ℕ} {b : Byte} (hb : b ≠ 0) (ht : v.turn s b = none) :
    v.col.length = DIR_COLS := by
  cases hphase : v.phase with
  | space | column =>
    simp only [turn, hphase, hb, false_or] at ht
    split at ht
    · assumption
    · split at ht
      · split at ht <;> cases ht
      · cases ht
  | devBlanks | devNumber =>
    simp only [turn, hphase, hb, or_false, if_false] at ht
    split at ht <;> cases ht

/-- At the NUL. -/
theorem parseDirAt_nul {v : DirVars} {line : Bytes} {cuts : List ℕ} (stale : Bytes)
    (hplaced : v.Placed line cuts) (hcounted : v.Counted line) :
    let r := parseDirAt v line.length (0 :: stale)
    if EndsInNumber line then line.length < r.last
    else Inside line { r with cuts := cuts ++ r.cuts } := by
  have hinside := hplaced.inside []
  intro r
  cases hphase : v.phase with
  | space | column =>
    rw [if_neg (by simp [hcounted.endsInNumber_iff, hphase])]
    simpa [r, parseDirAt, DirVars.turn, hphase] using hinside
  | devBlanks | devNumber =>
    rw [if_pos (by simp [hcounted.endsInNumber_iff, hphase])]
    simp only [r, parseDirAt, DirVars.turn, hphase]
    exact le_last_parseDirAt ..

/-- The rest of a line. -/
theorem parseDirAt_rest {v : DirVars} {p rest : Bytes} {cuts : List ℕ} (stale : Bytes)
    (hplaced : v.Placed p cuts) (hcounted : v.Counted p) (hnul : 0 ∉ rest) :
    let r := parseDirAt v p.length (rest ++ 0 :: stale)
    if EndsInNumber (p ++ rest) then (p ++ rest).length < r.last
    else Inside (p ++ rest) { r with cuts := cuts ++ r.cuts } := by
  induction rest generalizing v p cuts with
  | nil =>
    rw [List.append_nil]
    exact parseDirAt_nul stale hplaced hcounted
  | cons b rest ih =>
    have hb : b ≠ 0 := fun h => hnul (h ▸ List.mem_cons_self ..)
    have hrest : 0 ∉ rest := fun h => hnul (List.mem_cons_of_mem _ h)
    rw [List.cons_append, parseDirAt]
    cases ht : v.turn p.length b with
    | none =>
      have hmany : 6 < (dirFields (p ++ b :: rest)).length := by
        refine lt_of_lt_of_le ?_ (hcounted.le_fields.trans (length_dirFields_le ..))
        rw [DirVars.turn_none hb ht]
        decide
      intro r
      rw [if_neg (not_endsInNumber_of_lt hmany)]
      exact hplaced.inside _
    | some t =>
      obtain ⟨v', cut⟩ := t
      have hturns := DirVars.turns hb ht
      have h := ih (hplaced.turn hturns) (hcounted.turn hturns) hrest
      simp only [List.append_assoc, List.singleton_append, List.length_append,
        List.length_singleton] at h ⊢
      cases cut with
      | false => exact h
      | true => simpa using h

/-- **`parse_dir` stays inside a line** if and only if that does not end at the second number of a
device. The loop skips the comma and the blanks between the two numbers without a look for the NUL,
so a line that is cut there takes it past the end. -/
theorem inside_parseDirAt_iff (line stale : Bytes) (hnul : 0 ∉ line) :
    Inside line (parseDirAt .init 0 (line ++ 0 :: stale)) ↔ ¬ EndsInNumber line := by
  have h := parseDirAt_rest stale .init .init hnul
  simp only [List.nil_append] at h
  split at h
  · rename_i hends
    exact iff_of_false (fun hin => h.not_ge hin.reads) (not_not_intro hends)
  · rename_i hends
    exact iff_of_true h hends

/-- The line of a device without a name, with the date still to come. -/
def shortDevice : Bytes := ascii "b 1 0 0 8, 1"

/-- What an earlier line has left behind it goes into the columns. -/
theorem shortDevice_parseDirAt :
    ¬ Inside shortDevice (parseDirAt .init 0 (shortDevice ++ 0 :: ascii "ar  7 2004 lib")) := by
  intro h
  exact absurd h.reads (by decide)

/-- A line with nothing missing. -/
theorem inside_parseDirAt_iff_file :
    Inside (ascii "-rw 1 0 0 8 Jan 1 2004 a") (parseDirAt .init 0
      (ascii "-rw 1 0 0 8 Jan 1 2004 a" ++ 0 :: [])) ↔
    ¬ EndsInNumber (ascii "-rw 1 0 0 8 Jan 1 2004 a") :=
  inside_parseDirAt_iff (ascii "-rw 1 0 0 8 Jan 1 2004 a") [] (by decide)

end Shfs
