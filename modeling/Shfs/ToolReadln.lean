import Mathlib.Data.Set.Defs
import Shfs.Chunks

/-!
# `readln` of the tool

`init_sh` reads the replies of the remote host with a `readln` of its own (proto.c): it calls
`read()` until there is a newline in its buffer. It looks for the newline in all of the buffer
behind what it had before the call, also where nothing has been read yet, and takes all that the
call has brought.

Only the first call can be misled by what an earlier line has left, since it looks furthest. From
then on the result is `taken`, and that is a line unless a chunk has something behind its newline.
-/

namespace Shfs.Tool

open Lib

/-! ## The function -/

/-- `read(fd, …, m)` -/
def readFd (m : ℕ) : List Chunk → Except Errno Bytes × List Chunk
  | [] => (.ok [], [])
  | .fail e :: cs => (.error e, cs)
  | .data bs :: cs => (.ok (bs.take m), if m < bs.length then .data (bs.drop m) :: cs else cs)

/-- `errno == EINTR || errno == EAGAIN` -/
def transient (e : Errno) : Bool := e = .eintr || e = .eagain

/-- What `readln` leaves: its result, the buffer, and what has not been read. -/
structure Outcome : Type where
  rd : ℕ
  data : Bytes
  rest : List Chunk
  deriving DecidableEq, Repr

/-- There is less to come behind a read that has brought something, or failed. -/
theorem weight_readFd {m : ℕ} {cs cs' : List Chunk} {r : Except Errno Bytes}
    (h : readFd m cs = (r, cs')) (hr : r ≠ .ok []) :
    cs'.length + (Peer.chunkBytes cs').length < cs.length + (Peer.chunkBytes cs).length := by
  cases cs with
  | nil => exact absurd (Prod.mk.inj h).1.symm hr
  | cons c cs =>
    cases c with
    | fail e =>
      obtain ⟨-, rfl⟩ := Prod.mk.inj h
      exact Nat.add_lt_add_right (Nat.lt_succ_self _) _
    | data bs =>
      obtain ⟨rfl, rfl⟩ := Prod.mk.inj h
      have hne : 0 < m ∧ bs ≠ [] := by simpa [Nat.pos_iff_ne_zero] using hr
      have hpos := List.length_pos_iff.mpr hne.2
      split
      · simp only [Peer.chunkBytes, List.length_append, List.length_cons, List.length_drop]
        omega
      · simp only [Peer.chunkBytes, List.length_append, List.length_cons]
        omega

/-- `readln(fd, data, n)`, with `rd` octets in the buffer. It reads until the buffer is full,
nothing more comes, or there is a newline in what is behind the octets it had: in the whole rest of
the buffer. -/
def readln (n : ℕ) (data : Bytes) (rd : ℕ) (cs : List Chunk) : Outcome :=
  if n ≤ rd then ⟨rd, data, cs⟩
  else
    match _h : readFd (n - rd) cs with
    | (.error e, cs) => if transient e then readln n data rd cs else ⟨rd, data, cs⟩
    | (.ok [], cs) => ⟨rd, data, cs⟩
    | (.ok (b :: bs), cs) =>
      let result := (b :: bs).length
      let data := data.take rd ++ (b :: bs) ++ data.drop (rd + result)
      if nl ∈ (data.drop rd).take (n - rd) then ⟨rd + result, data, cs⟩
      else readln n data (rd + result) cs
  termination_by cs.length + (Peer.chunkBytes cs).length
  decreasing_by
  · exact weight_readFd _h (by simp)
  · exact weight_readFd _h (by simp)

/-! ## Lines -/

/-- A text with one newline, at its end. -/
def EndsLine (l : Bytes) : Prop := ∃ t, l = t ++ [nl] ∧ nl ∉ t

/-- The octets in front of the end of the file, or of an error. -/
def upToEnd : List Chunk → Bytes
  | [] => []
  | .fail e :: cs => if transient e then upToEnd cs else []
  | .data bs :: cs => if bs = [] then [] else bs ++ upToEnd cs

/-- **What a call should do**: it reads octets of the stream up to a newline, to the end of the
buffer, or to the end of the file or an error. -/
structure ReadsLine (n : ℕ) (cs : List Chunk) (r : Outcome) : Prop where
  length : r.rd ≤ (Peer.chunkBytes cs).length
  data : r.data.take r.rd = (Peer.chunkBytes cs).take r.rd
  rest : Peer.chunkBytes r.rest = (Peer.chunkBytes cs).drop r.rd
  stop : EndsLine (r.data.take r.rd) ∨ r.rd = n ∨ nl ∉ r.data.take r.rd ∧
    r.data.take r.rd = upToEnd cs

/-- What the caller gets, and the octets that have not been read. -/
def Outcome.seen (r : Outcome) : ℕ × Bytes × Bytes :=
  (r.rd, r.data.take r.rd, Peer.chunkBytes r.rest)

/-- Of the chunks that are read, one with a newline ends with it. So nothing of the next line is
taken, and a line may still come in several chunks. -/
def Cut (n : ℕ) : List Chunk → Prop
  | [] => True
  | .fail e :: cs => transient e = true → Cut n cs
  | .data bs :: cs =>
    bs = [] ∨ n ≤ bs.length ∨ (nl ∈ bs → EndsLine bs) ∧ (nl ∉ bs → Cut (n - bs.length) cs)

/-- The first chunk. -/
def firstChunk : List Chunk → Bytes
  | [] => []
  | .fail e :: cs => if transient e then firstChunk cs else []
  | .data bs :: _ => bs

/-- A newline of an earlier line does not come in between: there is none behind the first chunk, or
that is all the same the whole line. -/
def Undisturbed (n : ℕ) (cs : List Chunk) (buf : Bytes) : Prop :=
  nl ∈ (buf.take n).drop (firstChunk cs).length → nl ∈ firstChunk cs ∨ firstChunk cs = upToEnd cs

/-! ## What is read -/

/-- What is read into a buffer without newlines. -/
def taken (n : ℕ) : List Chunk → Bytes
  | [] => []
  | .fail e :: cs => if transient e then taken n cs else []
  | .data bs :: cs =>
    if n ≤ bs.length then bs.take n
    else if bs = [] ∨ nl ∈ bs then bs
    else bs ++ taken (n - bs.length) cs

section Taken

variable {n rd : ℕ} {cs : List Chunk} {data : Bytes}

/-- The end of the buffer, behind the loop. -/
theorem readln_full (h : n ≤ rd) : readln n data rd cs = ⟨rd, data, cs⟩ := by
  rw [readln, if_pos h]

theorem readln_nil (n rd : ℕ) (data : Bytes) : readln n data rd [] = ⟨rd, data, []⟩ := by
  rw [readln]
  split
  · rfl
  · rfl

theorem readln_fail (h : rd < n) (e : Errno) : readln n data rd (.fail e :: cs) =
    if transient e then readln n data rd cs else ⟨rd, data, cs⟩ := by
  rw [readln, if_neg (Nat.not_le.mpr h)]
  rfl

/-- The buffer with the octets of a call in it. -/
def put (data : Bytes) (rd : ℕ) (bs : Bytes) : Bytes :=
  data.take rd ++ bs ++ data.drop (rd + bs.length)

theorem readln_data (h : rd < n) {bs : Bytes} (hne : bs ≠ []) :
    readln n data rd (.data bs :: cs) =
      let c := bs.take (n - rd)
      let cs := if n - rd < bs.length then .data (bs.drop (n - rd)) :: cs else cs
      if nl ∈ ((put data rd c).drop rd).take (n - rd) then ⟨rd + c.length, put data rd c, cs⟩
      else readln n (put data rd c) (rd + c.length) cs := by
  have htake : bs.take (n - rd) ≠ [] := by
    rw [Ne, List.take_eq_nil_iff, not_or]
    exact ⟨(Nat.sub_pos_of_lt h).ne', hne⟩
  rw [readln, if_neg (Nat.not_le.mpr h)]
  split
  · rename_i hread
    cases (Prod.mk.inj hread).1
  · rename_i hread
    exact absurd (Except.ok.inj (Prod.mk.inj hread).1) htake
  · rename_i hread
    obtain ⟨hc, rfl⟩ := Prod.mk.inj hread
    rw [← Except.ok.inj hc]
    rfl

/-- The octets of a call are where they belong. -/
theorem take_put (hrd : rd ≤ data.length) (bs : Bytes) :
    (put data rd bs).take (rd + bs.length) = data.take rd ++ bs := by
  rw [put, List.take_append_of_le_length (by simp [hrd])]
  exact List.take_of_length_le (by simp)

theorem length_put {bs : Bytes} (h : rd + bs.length ≤ data.length) :
    (put data rd bs).length = data.length := by
  simp only [put, List.length_append, List.length_take, List.length_drop]
  omega

theorem drop_put (hrd : rd ≤ data.length) (bs : Bytes) :
    (put data rd bs).drop (rd + bs.length) = data.drop (rd + bs.length) := by
  have hlen : (data.take rd ++ bs).length = rd + bs.length := by simp [hrd]
  rw [put, ← hlen, List.drop_left]

/-- Nothing is changed behind the octets of the call. -/
theorem behind_put (hrd : rd ≤ data.length) (bs : Bytes) :
    ((put data rd bs).take n).drop (rd + bs.length) = (data.take n).drop (rd + bs.length) := by
  rw [List.drop_take, List.drop_take, drop_put hrd]

/-- What is searched for a newline: the octets of the call, and what has been there behind them. -/
theorem mem_searched (hrd : rd ≤ data.length) {bs : Bytes} (h : bs.length ≤ n - rd) :
    nl ∈ ((put data rd bs).drop rd).take (n - rd) ↔
      nl ∈ bs ∨ nl ∈ (data.take n).drop (rd + bs.length) := by
  have hdrop : (put data rd bs).drop rd = bs ++ data.drop (rd + bs.length) := by
    rw [put, List.append_assoc, List.drop_append, List.length_take, Nat.min_eq_left hrd]
    simp
  rw [hdrop, List.take_append, List.take_of_length_le h, List.mem_append, List.drop_take,
    Nat.sub_sub]

theorem readln_eof (h : rd < n) : readln n data rd (.data [] :: cs) = ⟨rd, data, cs⟩ := by
  have hread : readFd (n - rd) (.data [] :: cs) = (.ok [], cs) := by simp [readFd]
  rw [readln, if_neg (Nat.not_le.mpr h)]
  split
  · rename_i heq
    cases (Prod.mk.inj (hread.symm.trans heq)).1
  · rename_i heq
    rw [(Prod.mk.inj (hread.symm.trans heq)).2]
  · rename_i heq
    cases Except.ok.inj (Prod.mk.inj (hread.symm.trans heq)).1

theorem taken_zero (cs : List Chunk) : taken 0 cs = [] := by
  induction cs with
  | nil => rfl
  | cons c cs ih =>
    cases c with
    | fail e => rw [taken, ih, ite_self]
    | data bs => rw [taken, if_pos (Nat.zero_le _), List.take_zero]

/-- A chunk that fills the buffer. -/
theorem readln_fills (hlt : rd < n) {bs : Bytes} (hbs : n - rd ≤ bs.length) :
    readln n data rd (.data bs :: cs) = ⟨n, put data rd (bs.take (n - rd)),
      if n - rd < bs.length then .data (bs.drop (n - rd)) :: cs else cs⟩ := by
  have hne : bs ≠ [] := List.ne_nil_of_length_pos ((Nat.sub_pos_of_lt hlt).trans_le hbs)
  have hlen : rd + (bs.take (n - rd)).length = n := by
    rw [List.length_take, Nat.min_eq_left hbs, Nat.add_sub_cancel' hlt.le]
  rw [readln_data hlt hne]
  dsimp only
  rw [hlen, readln_full le_rfl, ite_self]

/-- A chunk that the buffer has room for. -/
theorem readln_fits (hlt : rd < n) {bs : Bytes} (hne : bs ≠ []) (hbs : bs.length ≤ n - rd) :
    readln n data rd (.data bs :: cs) =
      if nl ∈ ((put data rd bs).drop rd).take (n - rd) then ⟨rd + bs.length, put data rd bs, cs⟩
      else readln n (put data rd bs) (rd + bs.length) cs := by
  rw [readln_data hlt hne]
  dsimp only
  rw [List.take_of_length_le hbs, if_neg (Nat.not_lt.mpr hbs)]

/-- **What is read without being misled**: no newline is left behind the next chunk, so the call
takes the chunks up to the first one with a newline, or all that the buffer has room for. -/
theorem readln_taken (hrd : rd ≤ n) (hroom : n ≤ data.length)
    (hclean : nl ∉ (data.take n).drop (rd + (firstChunk cs).length)) :
    let r := readln n data rd cs
    r.rd = rd + (taken (n - rd) cs).length ∧
      r.data.take r.rd = data.take rd ++ taken (n - rd) cs ∧
      Peer.chunkBytes cs = taken (n - rd) cs ++ Peer.chunkBytes r.rest := by
  induction cs generalizing rd data with
  | nil => simp [readln_nil, taken, Peer.chunkBytes]
  | cons c cs ih =>
    rcases hrd.lt_or_eq with hlt | rfl
    swap
    · -- a full buffer takes nothing
      simp [readln_full, taken_zero]
    cases c with
    | fail e =>
      rw [readln_fail hlt, taken]
      rw [firstChunk] at hclean
      split
      · -- the read is tried again
        rename_i htransient
        rw [if_pos htransient] at hclean
        exact ih hrd hroom hclean
      · simp [Peer.chunkBytes]
    | data bs =>
      rw [taken]
      split
      · -- the rest of the chunk stays in the pipe
        rename_i hfills
        have htake := take_put (hrd.trans hroom) (bs.take (n - rd))
        have hlen : (bs.take (n - rd)).length = n - rd := by
          rw [List.length_take, Nat.min_eq_left hfills]
        rw [hlen, Nat.add_sub_cancel' hrd] at htake
        rw [readln_fills hlt hfills, hlen]
        refine ⟨(Nat.add_sub_cancel' hrd).symm, htake, ?_⟩
        dsimp only [Peer.chunkBytes]
        split
        · rw [Peer.chunkBytes, ← List.append_assoc, List.take_append_drop]
        · rename_i hle
          rw [List.take_of_length_le (Nat.not_lt.mp hle)]
      · rename_i hfits
        have hlen : bs.length < n - rd := Nat.not_le.mp hfits
        by_cases hne : bs = []
        · rw [hne, readln_eof hlt]
          simp [Peer.chunkBytes]
        rw [readln_fits hlt hne hlen.le]
        rw [firstChunk] at hclean
        have htake := take_put (hrd.trans hroom) bs
        -- what is searched starts at `rd`, so that old octets behind it count as well
        by_cases hnl : nl ∈ bs
        · rw [if_pos ((mem_searched (hrd.trans hroom) hlen.le).mpr (Or.inl hnl)),
            if_pos (Or.inr hnl)]
          exact ⟨rfl, htake, rfl⟩
        · rw [if_neg (mt (mem_searched (hrd.trans hroom) hlen.le).mp (not_or.mpr ⟨hnl, hclean⟩)),
            if_neg (not_or.mpr ⟨hne, hnl⟩)]
          have hle : rd + bs.length ≤ n := by omega
          have hroom' : n ≤ (put data rd bs).length := by
            rw [length_put (hle.trans hroom)]
            exact hroom
          have hclean' : nl ∉ ((put data rd bs).take n).drop (rd + bs.length) :=
            behind_put (hrd.trans hroom) bs ▸ hclean
          obtain ⟨hrd', hdata, hrest⟩ := ih hle hroom' fun h =>
            hclean' (List.drop_subset_drop_left _ (Nat.le_add_right ..) h)
          rw [Nat.sub_sub]
          refine ⟨?_, ?_, ?_⟩
          · rw [hrd', List.length_append, Nat.add_assoc]
          · rw [hdata, htake, List.append_assoc]
          · rw [Peer.chunkBytes, hrest, List.append_assoc]

/-- A newline behind the first chunk is inside the buffer. -/
theorem length_firstChunk_lt (hstale : nl ∈ (data.take n).drop (firstChunk cs).length) :
    (firstChunk cs).length < n := by
  by_contra hge
  rw [List.drop_eq_nil_of_le ((List.length_take_le _ _).trans (Nat.not_lt.mp hge))] at hstale
  cases hstale

/-- The first call finds a newline of an earlier line. -/
theorem readln_misled
    (hstale : nl ∈ (data.take n).drop (firstChunk cs).length) :
    let r := readln n data 0 cs
    r.rd = (firstChunk cs).length ∧ r.data.take r.rd = firstChunk cs ∧
      Peer.chunkBytes cs = firstChunk cs ++ Peer.chunkBytes r.rest := by
  have hlt := length_firstChunk_lt hstale
  induction cs with
  | nil => simp [readln_nil, firstChunk, Peer.chunkBytes]
  | cons c cs ih =>
    have hpos : 0 < n := (Nat.zero_le _).trans_lt hlt
    cases c with
    | fail e =>
      rw [firstChunk] at hstale hlt ⊢
      rw [readln_fail hpos]
      split
      · rename_i htransient
        rw [if_pos htransient] at hstale hlt
        exact ih hstale hlt
      · simp [Peer.chunkBytes]
    | data bs =>
      rw [firstChunk] at hstale hlt ⊢
      by_cases hne : bs = []
      · rw [hne, readln_eof hpos]
        simp [Peer.chunkBytes]
      · have htake := take_put (Nat.zero_le data.length) bs
        have hsearched := (mem_searched (n := n) (Nat.zero_le data.length) hlt.le).mpr
          (Or.inr (by rwa [Nat.zero_add]))
        rw [readln_fits hpos hne hlt.le, if_pos hsearched]
        refine ⟨Nat.zero_add _, ?_, rfl⟩
        simpa using htake

end Taken

/-! ## Lines -/

section Lines

variable {n : ℕ} {cs : List Chunk} {l : Bytes}

/-- Where a call may stop, of what it has read. -/
def Stops (n : ℕ) (cs : List Chunk) (l : Bytes) : Prop :=
  EndsLine l ∨ l.length = n ∨ nl ∉ l ∧ l = upToEnd cs

theorem EndsLine.mem (h : EndsLine l) : nl ∈ l := by
  obtain ⟨t, rfl, -⟩ := h
  simp

/-- A text without newlines in front of a line. -/
theorem endsLine_append {t : Bytes} (ht : nl ∉ t) (l : Bytes) : EndsLine (t ++ l) ↔ EndsLine l := by
  constructor
  · rintro ⟨u, hu, hnu⟩
    rcases List.eq_nil_or_concat l with rfl | ⟨l', b, rfl⟩
    · rw [List.append_nil] at hu
      exact absurd (by simp [hu]) ht
    · rw [List.concat_eq_append, ← List.append_assoc] at hu
      obtain ⟨rfl, hb⟩ := List.append_inj' hu rfl
      refine ⟨l', ?_, fun h => hnu (List.mem_append_right _ h)⟩
      rw [List.concat_eq_append, hb]
  · rintro ⟨u, rfl, hnu⟩
    exact ⟨t ++ u, (List.append_assoc ..).symm, by simp [ht, hnu]⟩

/-- **The chunks that are lines** are those at which a call stops rightly: what it has taken is one
line, or as much of one as there is room for. -/
theorem stops_taken (n : ℕ) (cs : List Chunk) : Stops n cs (taken n cs) ↔ Cut n cs := by
  induction cs generalizing n with
  | nil => simp [Stops, taken, Cut, upToEnd]
  | cons c cs ih =>
    cases c with
    | fail e =>
      rw [taken, Cut, Stops, upToEnd]
      by_cases h : transient e = true
      · rw [if_pos h, if_pos h]
        exact (ih n).trans ⟨fun hcut _ => hcut, fun hcut => hcut h⟩
      · simp [h]
    | data bs =>
      rw [taken, Cut, Stops, upToEnd]
      by_cases hfills : n ≤ bs.length
      · rw [if_pos hfills]
        exact iff_of_true (Or.inr (Or.inl (by simp [hfills]))) (Or.inr (Or.inl hfills))
      rw [if_neg hfills]
      by_cases hne : bs = []
      · simp [hne]
      by_cases hnl : nl ∈ bs
      · have hlen : bs.length ≠ n := fun h => hfills h.ge
        simp [hne, hnl, hfills, hlen]
      · rw [if_neg (not_or.mpr ⟨hne, hnl⟩), if_neg hne, endsLine_append hnl]
        have hrest : Stops (n - bs.length) cs (taken (n - bs.length) cs) ↔ _ := ih _
        have hlen : (bs ++ taken (n - bs.length) cs).length = n ↔
            (taken (n - bs.length) cs).length = n - bs.length := by
          rw [List.length_append]
          omega
        rw [hlen, List.mem_append, List.append_cancel_left_eq]
        simpa [Stops, hne, hnl, hfills] using hrest

/-- Nothing is taken from behind the end. -/
theorem taken_prefix (n : ℕ) (cs : List Chunk) : taken n cs <+: upToEnd cs := by
  induction cs generalizing n with
  | nil => exact List.prefix_refl _
  | cons c cs ih =>
    cases c with
    | fail e =>
      rw [taken, upToEnd]
      split
      · exact ih n
      · exact List.prefix_refl _
    | data bs =>
      rw [taken, upToEnd]
      by_cases hne : bs = []
      · simp [hne]
      rw [if_neg hne]
      split
      · exact (List.take_prefix ..).trans (List.prefix_append ..)
      split
      · exact List.prefix_append ..
      · exact (List.prefix_append_right_inj bs).mpr (ih _)

/-- What is taken is the first chunk, if that is the line. -/
theorem taken_eq_firstChunk (hlt : (firstChunk cs).length < n)
    (h : nl ∈ firstChunk cs ∨ firstChunk cs = upToEnd cs) : taken n cs = firstChunk cs := by
  induction cs with
  | nil => rfl
  | cons c cs ih =>
    cases c with
    | fail e =>
      rw [firstChunk, upToEnd] at h
      rw [firstChunk] at hlt
      rw [taken, firstChunk]
      split
      · rename_i htransient
        rw [if_pos htransient] at h hlt
        rw [if_pos htransient] at h
        exact ih hlt h
      · rfl
    | data bs =>
      rw [firstChunk, upToEnd] at h
      rw [firstChunk] at hlt
      rw [taken, firstChunk, if_neg (Nat.not_le.mpr hlt)]
      split
      · rfl
      · rename_i hno
        obtain ⟨hne, hnl⟩ := not_or.mp hno
        rw [if_neg hne] at h
        have hnil : upToEnd cs = [] := by
          rcases h with h | h
          · exact absurd h hnl
          · exact List.self_eq_append_right.mp h
        have htaken := taken_prefix (n - bs.length) cs
        rw [hnil, List.prefix_nil] at htaken
        rw [htaken, List.append_nil]

/-- Where the first chunk is taken for the line. -/
theorem stops_firstChunk (hlt : (firstChunk cs).length < n) :
    Stops n cs (firstChunk cs) ↔
      Cut n cs ∧ (nl ∈ firstChunk cs ∨ firstChunk cs = upToEnd cs) := by
  constructor
  · intro h
    have hline : nl ∈ firstChunk cs ∨ firstChunk cs = upToEnd cs := by
      rcases h with h | h | h
      · exact Or.inl h.mem
      · exact absurd h hlt.ne
      · exact Or.inr h.2
    refine ⟨?_, hline⟩
    rw [← stops_taken, taken_eq_firstChunk hlt hline]
    exact h
  · rintro ⟨hcut, hline⟩
    rwa [← stops_taken, taken_eq_firstChunk hlt hline] at hcut

end Lines

/-! ## The calls -/

section Calls

variable {n : ℕ} {cs : List Chunk} {buf : Bytes}

/-- A call that takes the octets `l` of the stream reads a line if it may stop there. -/
theorem readsLine_iff {r : Outcome} {l : Bytes} (hrd : r.rd = l.length)
    (hdata : r.data.take r.rd = l) (hrest : Peer.chunkBytes cs = l ++ Peer.chunkBytes r.rest) :
    ReadsLine n cs r ↔ Stops n cs l := by
  have hstop : (EndsLine (r.data.take r.rd) ∨ r.rd = n ∨ nl ∉ r.data.take r.rd ∧
      r.data.take r.rd = upToEnd cs) ↔ Stops n cs l := by
    rw [hdata, hrd]
    rfl
  refine ⟨fun h => hstop.mp h.stop, fun h => ⟨?_, ?_, ?_, hstop.mpr h⟩⟩
  · rw [hrest, hrd, List.length_append]
    exact Nat.le_add_right ..
  · rw [hrest, hdata, hrd, List.take_left]
  · rw [hrest, hrd, List.drop_left]

/-- **A call reads a line** exactly where the chunks are lines and nothing of an earlier line comes
in between. -/
theorem readsLine_readln_iff (hroom : n ≤ buf.length) :
    ReadsLine n cs (readln n buf 0 cs) ↔ Cut n cs ∧ Undisturbed n cs buf := by
  by_cases hstale : nl ∈ (buf.take n).drop (firstChunk cs).length
  · obtain ⟨hrd, hdata, hrest⟩ := readln_misled hstale
    rw [readsLine_iff hrd hdata hrest, stops_firstChunk (length_firstChunk_lt hstale), Undisturbed,
      imp_iff_right hstale]
  · have hclean : nl ∉ (buf.take n).drop (0 + (firstChunk cs).length) := by rwa [Nat.zero_add]
    obtain ⟨hrd, hdata, hrest⟩ := readln_taken (Nat.zero_le n) hroom hclean
    rw [Nat.zero_add] at hrd
    rw [readsLine_iff hrd hdata hrest, Nat.sub_zero, stops_taken]
    exact ⟨fun h => ⟨h, fun hmem => absurd hmem hstale⟩, fun h => h.1⟩

/-- What is read then is the same for every buffer. -/
theorem seen_readln (hroom : n ≤ buf.length) (h : Undisturbed n cs buf) :
    (readln n buf 0 cs).seen =
      ((taken n cs).length, taken n cs, (Peer.chunkBytes cs).drop (taken n cs).length) := by
  have hseen : ∀ {r : Outcome} {l : Bytes}, r.rd = l.length → r.data.take r.rd = l →
      Peer.chunkBytes cs = l ++ Peer.chunkBytes r.rest →
      r.seen = (l.length, l, (Peer.chunkBytes cs).drop l.length) := by
    intro r l hrd hdata hrest
    rw [Outcome.seen, hrest, List.drop_left, hdata, hrd]
  by_cases hstale : nl ∈ (buf.take n).drop (firstChunk cs).length
  · obtain ⟨hrd, hdata, hrest⟩ := readln_misled hstale
    rw [taken_eq_firstChunk (length_firstChunk_lt hstale) (h hstale)]
    exact hseen hrd hdata hrest
  · have hclean : nl ∉ (buf.take n).drop (0 + (firstChunk cs).length) := by rwa [Nat.zero_add]
    obtain ⟨hrd, hdata, hrest⟩ := readln_taken (Nat.zero_le n) hroom hclean
    rw [Nat.zero_add] at hrd
    exact hseen hrd hdata hrest

/-- **`readln` reads lines into the buffers `earlier`, whatever they hold**, exactly where the
chunks are lines and none of the buffers comes in between. It looks for a newline in the whole rest
of the buffer and not only in what it has read, so what an earlier line has left there may end this
one. -/
theorem readln_iff (n : ℕ) (cs : List Chunk) (earlier : Set Bytes)
    (hroom : ∀ buf ∈ earlier, n ≤ buf.length) :
    ((∀ buf ∈ earlier, ReadsLine n cs (readln n buf 0 cs)) ∧
      ∀ buf ∈ earlier, ∀ buf' ∈ earlier, (readln n buf 0 cs).seen = (readln n buf' 0 cs).seen) ↔
    ∀ buf ∈ earlier, Cut n cs ∧ Undisturbed n cs buf := by
  constructor
  · rintro ⟨hread, -⟩ buf hbuf
    exact (readsLine_readln_iff (hroom buf hbuf)).mp (hread buf hbuf)
  · intro h
    refine ⟨fun buf hbuf => (readsLine_readln_iff (hroom buf hbuf)).mpr (h buf hbuf), ?_⟩
    intro buf hbuf buf' hbuf'
    rw [seen_readln (hroom buf hbuf) (h buf hbuf).2,
      seen_readln (hroom buf' hbuf') (h buf' hbuf').2]

end Calls

/-! ## The reply to `s_init` -/

/-- The buffer with the line that `init_sh` has sent. -/
def sentInit : Bytes := ascii "s_init ''" ++ [nl, 0] ++ ascii "stale"

/-- The reply in two pieces. -/
def replyPieces : List Chunk := [.data (ascii "### "), .data (ascii "200" ++ [nl])]

/-- **The line that has been sent ends the reply**: its newline is found behind the first piece. -/
theorem not_readln_replyPieces :
    ¬ ∀ (n : ℕ) (cs : List Chunk),
      (∀ buf : Bytes, n ≤ buf.length → ReadsLine n cs (readln n buf 0 cs)) ∧
        ∀ buf buf' : Bytes, n ≤ buf.length → n ≤ buf'.length →
          (readln n buf 0 cs).seen = (readln n buf' 0 cs).seen := by
  intro h
  have hline := (h 16 replyPieces).1 sentInit (by decide)
  have hundisturbed := ((readsLine_readln_iff (by decide)).mp hline).2
  exact absurd (hundisturbed (by decide)) (by decide)

/-- In one piece, with the same buffer and a fresh one. -/
theorem readln_iff_reply :
    (∀ buf ∈ ({sentInit, List.replicate 16 0} : Set Bytes),
        ReadsLine 16 [.data (ascii "### 200" ++ [nl])]
          (readln 16 buf 0 [.data (ascii "### 200" ++ [nl])])) ∧
      ∀ buf ∈ ({sentInit, List.replicate 16 0} : Set Bytes),
        ∀ buf' ∈ ({sentInit, List.replicate 16 0} : Set Bytes),
          (readln 16 buf 0 [.data (ascii "### 200" ++ [nl])]).seen =
            (readln 16 buf' 0 [.data (ascii "### 200" ++ [nl])]).seen := by
  refine (readln_iff 16 [.data (ascii "### 200" ++ [nl])] {sentInit, List.replicate 16 0} ?_).mpr ?_
  · rintro buf (rfl | rfl)
    · decide
    · decide
  · rintro buf -
    refine ⟨Or.inr (Or.inr ⟨fun _ => ⟨ascii "### 200", rfl, by decide⟩, fun h => ?_⟩),
      fun _ => Or.inl (by decide)⟩
    exact absurd (by decide) h

end Shfs.Tool
