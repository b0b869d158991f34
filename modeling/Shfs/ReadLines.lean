import Shfs.Chunks

/-!
# Reading lines of a stream that comes in pieces

`sock_readln` keeps what it has read behind a line in `readlnbuf`. A stream of lines can be cut
anywhere: between the buffer and the socket, and into the pieces that the reads bring. As long as no
read fails with anything else than `-EAGAIN`, a call finds the next line of the stream, whatever the
cut (`Peer.readln_cut`). The calls then return the lines one after the other (`readlns_eq`).
-/

namespace Shfs

open Lib

/-- The reads bring octets, or `-EAGAIN`. -/
def Peer.Cut (p : Peer) : Prop :=
  ∀ c ∈ p.incoming, c = .fail .eagain ∨ ∃ b bs, c = .data (b :: bs)

/-- The text of some lines. -/
def linesText (lines : List Bytes) : Bytes := lines.flatMap (· ++ [nl])

/-- A line that `readlnbuf` has room for, without NUL bytes. -/
structure Readable (l : Bytes) : Prop where
  nl : nl ∉ l
  nul : (0 : Byte) ∉ l
  room : l.length < READLNBUF_SIZE

namespace Peer

variable {p p' : Peer} {n : ℕ} {l : Bytes}

/-- A read of a stream that is cut: nothing is left, or it is to be tried again, or it brings
octets. -/
theorem Cut.doSyncRead (h : p.Cut) (hn : 0 < n) :
    (chunkBytes p.incoming = [] ∧ p.incoming = []) ∨
      ∃ p', p'.Cut ∧ (p.doSyncRead n = (.error .eagain, p') ∨
        ∃ b bs, p.doSyncRead n = (.ok (b :: bs), p')) := by
  unfold Peer.doSyncRead
  rcases hin : p.incoming with _ | ⟨c, cs⟩
  · exact .inl ⟨rfl, rfl⟩
  · have hcs : ∀ c' ∈ cs, c' = .fail .eagain ∨ ∃ b bs, c' = .data (b :: bs) :=
      fun c' hc' => h c' (hin ▸ List.mem_cons_of_mem _ hc')
    refine .inr ?_
    rcases h c (hin ▸ List.mem_cons_self ..) with rfl | ⟨b, bs, rfl⟩
    · exact ⟨{ p with incoming := cs }, hcs, .inl rfl⟩
    · obtain ⟨k, rfl⟩ := Nat.exists_eq_succ_of_ne_zero hn.ne'
      refine ⟨_, ?_, .inr ⟨b, bs.take k, rfl⟩⟩
      rintro c' hc'
      dsimp only at hc'
      split at hc'
      · next hlt =>
        rcases List.mem_cons.mp hc' with rfl | hc'
        · -- a piece that is longer than what was asked for
          refine .inr ?_
          have hne : bs.drop k ≠ [] := by
            rw [List.length_cons] at hlt
            rw [Ne, List.drop_eq_nil_iff]
            omega
          obtain ⟨b', bs', hb'⟩ := List.exists_cons_of_ne_nil hne
          exact ⟨b', bs', by rw [List.drop_succ_cons, hb']⟩
        · exact hcs c' hc'
      · exact hcs c' hc'

/-- **`sock_readln` finds the next line**, however the stream is cut, and whatever reads have
nothing in between. The stream behind it is the one behind the line. -/
theorem readln_cut (hcut : p.Cut) (hbuf : p.lnbuf.length ≤ READLNBUF_SIZE)
    (h : nextLine READLNBUF_SIZE p.stream = some (l, n)) :
    ∃ p', p.readln = (.ok l, p') ∧ p'.Cut ∧ p'.lnbuf.length ≤ READLNBUF_SIZE ∧
      p'.stream = p.stream.drop n := by
  -- a result of the call is the line, so it only has to come back with one
  suffices hok : ∃ l' p', p.readln = (.ok l', p') ∧ p'.Cut by
    obtain ⟨l', p', hread, hcut'⟩ := hok
    obtain ⟨n', hline, hdrop, hbuf'⟩ := readln_spec hbuf hread
    obtain ⟨rfl, rfl⟩ := Prod.mk.inj (Option.some.inj (h.symm.trans hline))
    exact ⟨p', hread, hcut', hbuf', hdrop⟩
  induction hw : p.weight using Nat.strong_induction_on generalizing p with
  | _ w ih =>
    rcases hnext : nextLine READLNBUF_SIZE p.lnbuf with _ | ⟨l', n'⟩
    · have hroom : 0 < READLNBUF_SIZE - p.lnbuf.length := by
        have := (nextLine_eq_none_iff.mp hnext).2
        omega
      rcases hcut.doSyncRead hroom with ⟨hnone, -⟩ | ⟨p₁, hcut₁, hread | ⟨b, bs, hread⟩⟩
      · -- the buffer has the whole stream, and no line
        rw [stream, hnone, List.append_nil, hnext] at h
        cases h
      · obtain ⟨hln, hbytes⟩ := doSyncRead_error hread
        have hstream : p₁.stream = p.stream := by rw [stream, stream, hln, hbytes]
        have hlt := weight_doSyncRead hread (by simp)
        rw [readln_of_again hnext hread]
        exact ih _ (hw ▸ hlt) hcut₁ (by rwa [hln]) (by rwa [hstream]) rfl
      · obtain ⟨hln, hlen, hbytes⟩ := doSyncRead_ok hread
        have hstream : ({ p₁ with lnbuf := p₁.lnbuf ++ b :: bs } : Peer).stream = p.stream := by
          simp only [stream, hln, hbytes, List.append_assoc]
        have hlt := weight_doSyncRead hread (by simp)
        rw [readln_of_data hnext hread]
        refine ih p₁.weight (hw ▸ hlt) hcut₁ ?_ (by rwa [hstream]) rfl
        rw [hln, List.length_append]
        omega
    · exact ⟨l', _, readln_of_line hnext, hcut⟩

end Peer

namespace Transfer

/-- One call. -/
theorem perform_readln {l : Bytes} {rest : Bytes} {link : Link} (hc : link.info.Clean)
    (hcut : link.peer.Cut) (hbuf : link.peer.lnbuf.length ≤ READLNBUF_SIZE) (hl : Readable l)
    (hstream : link.peer.stream = l ++ nl :: rest) (count : ℕ) :
    ∃ link', perform link (.readln (count + 1)) = some (l.take count, link') ∧
      link'.info.Clean ∧ link'.peer.Cut ∧ link'.peer.lnbuf.length ≤ READLNBUF_SIZE ∧
      link'.peer.stream = rest := by
  have hline : nextLine READLNBUF_SIZE link.peer.stream = some (l, l.length + 1) := by
    rw [hstream]
    exact nextLine_of_fits hl.nl hl.room
  obtain ⟨p', hread, hcut', hbuf', hdrop⟩ := Peer.readln_cut hcut hbuf hline
  refine ⟨⟨link.info, p'⟩, ?_, hc, hcut', hbuf', ?_⟩
  · simp only [perform, call, sockReadln_clean hc, recvln, runPeer, hread, cstr_eq_self hl.nul,
      Nat.add_sub_cancel]
  · change p'.stream = rest
    rw [hdrop, hstream, List.append_cons, List.drop_left' (by simp)]

/-- **`sock_readln` does not depend on how the stream is cut.** The calls return the lines of the
stream in their order, each cut to what the caller's buffer has room for beside the NUL, and what is
left is the stream behind the last of them. -/
theorem readlns_eq {lines : List Bytes} {rest : Bytes} {link : Link} (hc : link.info.Clean)
    (hcut : link.peer.Cut) (hbuf : link.peer.lnbuf.length ≤ READLNBUF_SIZE)
    (hlines : ∀ l ∈ lines, Readable l) (hstream : link.peer.stream = linesText lines ++ rest)
    {counts : List ℕ} (hlen : counts.length ≤ lines.length) :
    ∃ link', performAll link (counts.map fun count => .readln (count + 1)) =
        some (List.zipWith List.take counts lines, link') ∧
      link'.peer.stream = linesText (lines.drop counts.length) ++ rest := by
  induction counts generalizing lines link with
  | nil => exact ⟨link, rfl, hstream⟩
  | cons count counts ih =>
    cases lines with
    | nil => cases hlen
    | cons l lines =>
      have hfirst : link.peer.stream = l ++ nl :: (linesText lines ++ rest) := by
        rw [hstream, linesText, List.flatMap_cons, List.append_assoc, List.append_assoc]
        rfl
      obtain ⟨link₁, hperform, hc₁, hcut₁, hbuf₁, hstream₁⟩ :=
        perform_readln hc hcut hbuf (hlines l (List.mem_cons_self ..)) hfirst count
      obtain ⟨link₂, hrest, hstream₂⟩ := ih hc₁ hcut₁ hbuf₁
        (fun l' hl' => hlines l' (List.mem_cons_of_mem _ hl')) hstream₁
          (Nat.le_of_succ_le_succ hlen)
      refine ⟨link₂, ?_, hstream₂⟩
      simp only [List.map_cons, performAll, hperform, hrest, Option.bind_eq_bind, Option.bind_some,
        Option.pure_def, List.zipWith_cons_cons]

/-- The lines `ab` and `cd`, the first octet in the buffer and the others in two pieces. -/
def twoLines : Link :=
  ⟨⟨true, false, 0, 0⟩,
    ⟨ascii "a", [.fail .eagain, .data (ascii "b" ++ nl :: ascii "c"), .data (ascii "d" ++ [nl])],
      [], []⟩⟩

theorem readlns_eq_twoLines :
    ∃ link', performAll twoLines ([9, 1].map fun count => .readln (count + 1)) =
        some ([ascii "ab", ascii "c"], link') ∧ link'.peer.stream = [] := by
  have hcut : twoLines.peer.Cut := by
    rintro c (_ | ⟨_, _ | ⟨_, _ | ⟨_, ⟨⟩⟩⟩⟩)
    · exact .inl rfl
    · exact .inr ⟨_, _, rfl⟩
    · exact .inr ⟨_, _, rfl⟩
  have hlines : ∀ l ∈ [ascii "ab", ascii "cd"], Readable l := by
    rintro l (_ | ⟨_, _ | ⟨_, ⟨⟩⟩⟩) <;> exact ⟨by decide, by decide, by decide⟩
  have hstream : twoLines.peer.stream = linesText [ascii "ab", ascii "cd"] ++ [] := by decide
  exact readlns_eq ⟨rfl, rfl⟩ hcut (by decide) hlines hstream (by decide)

end Transfer

end Shfs
