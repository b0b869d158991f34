import Mathlib.Data.List.Infix
import Shfs.Shfsmount

/-!
# `init_sh`: which server to start

`init_sh` (proto.c) talks to the login shell of the remote host: it sends the test script of one
entry of its table after the other, looks for an answer among the lines that come back, and starts
the server code of the first entry that can do what is asked for. A `Login` is what the host prints
in reaction; `readln` is taken to deliver one line for a call.

A line is taken for the answer as soon as `ok` or `failed` is somewhere in it. `initSh_selects` is
about logins that print no such line; `not_initSh_selects` has one that does.
-/

namespace Shfs

open Lib

/-- The entries of the table. -/
inductive Proto : Type where
  | perl
  | shell
  deriving DecidableEq, Repr

/-- `id` -/
def Proto.id : Proto → Bytes
  | perl => ascii "perl"
  | shell => ascii "shell"

theorem Proto.id_injective : Function.Injective Proto.id := by
  rintro (_ | _) (_ | _) h
  · rfl
  · exact absurd h (by decide)
  · exact absurd h (by decide)
  · rfl

/-- The table. -/
def sh : List Proto := [.perl, .shell]

/-- What is written to the remote host: the test or the code of an entry, or a line. -/
inductive Written : Type where
  | test (p : Proto)
  | code (p : Proto)
  | line (text : Bytes)
  deriving DecidableEq, Repr

/-- The lines that the remote host prints, each with its end, when it has got the test, the code or
the `s_init` line. -/
structure Login : Type where
  onTest : Proto → List Bytes
  onCode : Proto → List Bytes
  onInit : Bytes → List Bytes

/-- What has been written, and the lines that have not been read. -/
structure Session : Type where
  sent : List Written
  inbox : List Bytes
  deriving DecidableEq, Repr

/-- How `init_sh` ends: it returns, or `error` ends the program with this message. -/
inductive InitResult : Type where
  | returned (r : ℕ)
  | exited (msg : Bytes)
  deriving DecidableEq, Repr

/-! ## The tests -/

/-- The line without its end. -/
def chomp (l : Bytes) : Bytes := if l.getLast? = some nl then l.dropLast else l

/-- The loop that waits for an answer: the string in `buffer`, and the lines behind. At the end of
the stream nothing is read. -/
def awaitAnswer : List Bytes → Bytes × List Bytes
  | [] => ([], [])
  | l :: ls =>
    let buffer := cstr (chomp l)
    if l ≠ [] ∧ ¬ ascii "ok" <:+: buffer ∧ ¬ ascii "failed" <:+: buffer then awaitAnswer ls
    else (buffer, ls)

/-- `rok`, `rstable` and `rpreserve`. -/
structure Caps : Type where
  ok : Bool
  stable : Bool
  preserve : Bool
  deriving DecidableEq, Repr

/-- The words of the answer, between single blanks. -/
def capsOf (buffer : Bytes) : Caps where
  ok := decide (ascii "ok" ∈ buffer.splitOn sp)
  stable := decide (ascii "stable" ∈ buffer.splitOn sp)
  preserve := decide (ascii "preserve" ∈ buffer.splitOn sp)

/-- What is asked for: a type, or any, and the two capabilities. -/
structure Wanted : Type where
  desired : Option Bytes
  stable : Bool
  preserve : Bool

/-- The complaint about an entry, if it cannot do what is asked for. -/
def Wanted.refusal (w : Wanted) (p : Proto) (caps : Caps) : Option Bytes :=
  if w.stable ∧ ¬ caps.stable then some (p.id ++ ascii ": stable not supported.")
  else if w.preserve ∧ ¬ caps.preserve then some (p.id ++ ascii ": preserve not supported")
  else none

/-- The `for` loop: it ends the function, or finds an entry. -/
def testLoop (r : Login) (w : Wanted) : List Proto → Session → Session × (InitResult ⊕ Proto)
  | [], s => (s, .inl (.returned 0))
  | p :: ps, s =>
    if ∃ d ∈ w.desired, p.id ≠ d then testLoop r w ps s
    else
      let (buffer, inbox) := awaitAnswer (s.inbox ++ r.onTest p)
      let s : Session := ⟨s.sent ++ [.test p], inbox⟩
      if buffer = [] then (s, .inl (.returned 0))
      else if (capsOf buffer).ok then
        match w.refusal p (capsOf buffer) with
        | none => (s, .inr p)
        | some msg =>
          if w.desired = none then testLoop r w ps s else (s, .inl (.exited msg))
      else testLoop r w ps s

/-! ## The start of the server -/

/-- `readln`, which is not looked at for the end of the stream. -/
def nextReply : List Bytes → Bytes × List Bytes
  | [] => ([], [])
  | l :: ls => (cstr l, ls)

/-- The server code, and `s_init`. -/
def startServer (r : Login) (root : Option Bytes) (w : Wanted) (p : Proto) (s : Session) :
    Session × InitResult :=
  let (reply, inbox) := nextReply (s.inbox ++ r.onCode p)
  let s : Session := ⟨s.sent ++ [.code p], inbox⟩
  if reply ≠ ascii "### 200" ++ [nl] then (s, .returned 0)
  else
    let line := intoBuf (ascii "s_init '" ++ root.getD [] ++ ascii "'" ++
      (if w.stable then ascii " stable" else []) ++
      (if w.preserve then ascii " preserve" else []) ++ [nl])
    let (reply, inbox) := nextReply (s.inbox ++ r.onInit line)
    let s : Session := ⟨s.sent ++ [.line line], inbox⟩
    if reply ≠ ascii "### 200" ++ [nl] then (s, .returned 0) else (s, .returned 1)

/-- `init_sh` -/
def initSh (r : Login) (root : Option Bytes) (w : Wanted) : Session × InitResult :=
  match testLoop r w sh ⟨[], []⟩ with
  | (s, .inl result) => (s, result)
  | (s, .inr p) => startServer r root w p s

/-! ## Answers -/

/-- What a test script answers. -/
inductive TestAnswer : Type where
  | failed
  | okStable
  | okStablePreserve
  deriving DecidableEq, Repr

/-- The text of the answer. -/
def TestAnswer.text : TestAnswer → Bytes
  | failed => ascii "failed"
  | okStable => ascii "ok stable"
  | okStablePreserve => ascii "ok stable preserve"

/-- What it says. -/
def TestAnswer.caps : TestAnswer → Caps
  | failed => ⟨false, false, false⟩
  | okStable => ⟨true, true, false⟩
  | okStablePreserve => ⟨true, true, true⟩

/-- A line of a login that is not taken for an answer. -/
def Plain (l : Bytes) : Prop := ¬ ascii "ok" <:+: cstr l ∧ ¬ ascii "failed" <:+: cstr l

/-- A host whose tests print these texts and then these answers. -/
def Login.Prints (r : Login) (banner : Proto → List Bytes) (answer : Proto → TestAnswer) : Prop :=
  ∀ p, r.onTest p = (banner p ++ [(answer p).text]).map (· ++ [nl])

/-- The entry is of the desired type, and its own test answers with all that is asked for. -/
def Wanted.Supports (w : Wanted) (answer : Proto → TestAnswer) (p : Proto) : Bool :=
  (w.desired.all fun d => decide (p.id = d)) && (answer p).caps.ok &&
    (w.refusal p (answer p).caps).isNone

/-- The server codes among what has been written. -/
def codes (sent : List Written) : List Proto :=
  sent.filterMap fun
    | .code p => some p
    | _ => none

variable {r : Login} {w : Wanted} {banner : Proto → List Bytes} {answer : Proto → TestAnswer}

@[simp] theorem codes_append (a b : List Written) : codes (a ++ b) = codes a ++ codes b :=
  List.filterMap_append

@[simp] theorem codes_nil : codes [] = [] := rfl

@[simp] theorem codes_test (p : Proto) (sent : List Written) :
    codes (.test p :: sent) = codes sent := rfl

@[simp] theorem codes_code (p : Proto) (sent : List Written) :
    codes (.code p :: sent) = p :: codes sent := rfl

@[simp] theorem codes_line (text : Bytes) (sent : List Written) :
    codes (.line text :: sent) = codes sent := rfl

@[simp] theorem chomp_line (l : Bytes) : chomp (l ++ [nl]) = l := by
  simp [chomp]

theorem capsOf_text (a : TestAnswer) : capsOf a.text = a.caps := by
  cases a <;> decide

theorem text_ne_nil (a : TestAnswer) : a.text ≠ [] := by
  cases a <;> decide

/-- The answer is found behind lines that are not taken for one. -/
theorem awaitAnswer_lines {lines : List Bytes} (hlines : ∀ l ∈ lines, Plain l) (a : TestAnswer)
    (rest : List Bytes) :
    awaitAnswer ((lines ++ [a.text]).map (· ++ [nl]) ++ rest) = (a.text, rest) := by
  induction lines with
  | nil =>
    have hcstr : cstr a.text = a.text := by cases a <;> decide
    have htaken : ascii "ok" <:+: a.text ∨ ascii "failed" <:+: a.text := by cases a <;> decide
    simp only [List.nil_append, List.map_cons, List.map_nil, List.cons_append, awaitAnswer,
      chomp_line, hcstr]
    rw [if_neg fun h => htaken.elim h.2.1 h.2.2]
  | cons l lines ih =>
    have hl := hlines l (List.mem_cons_self ..)
    simp only [List.cons_append, List.map_cons, awaitAnswer, chomp_line]
    rw [if_pos ⟨by simp, hl⟩]
    exact ih fun l' h => hlines l' (List.mem_cons_of_mem _ h)

/-- How the loop ends if there is no entry to start: it returns 0 without the answer `ok` of a
desired entry, and otherwise says which capability that entry has not got. -/
def Wanted.Unserved (w : Wanted) (answer : Proto → TestAnswer) (ps : List Proto) (o : InitResult) :
    Prop :=
  (o = .returned 0 ∧ ∀ p ∈ ps, w.desired = some p.id → (answer p).caps.ok = false) ∨
    ∃ p ∈ ps, w.desired = some p.id ∧ (answer p).caps.ok = true ∧
      ∃ msg, w.refusal p (answer p).caps = some msg ∧ o = .exited msg

theorem Wanted.Unserved.cons {p : Proto} {ps : List Proto} {o : InitResult}
    (h : w.Unserved answer ps o) (hp : w.desired = some p.id → (answer p).caps.ok = false) :
    w.Unserved answer (p :: ps) o := by
  rcases h with ⟨ho, hps⟩ | ⟨q, hq, hrest⟩
  · refine .inl ⟨ho, ?_⟩
    rintro q (_ | ⟨_, hq⟩)
    · exact hp
    · exact hps q hq
  · exact .inr ⟨q, List.mem_cons_of_mem _ hq, hrest⟩

/-- One turn of the loop for an entry of another type. -/
theorem testLoop_skip {p : Proto} {ps : List Proto} {s : Session} (h : ∃ d ∈ w.desired, p.id ≠ d) :
    testLoop r w (p :: ps) s = testLoop r w ps s := by
  rw [testLoop, if_pos h]

/-- One turn of the loop for an entry whose test is run. -/
theorem testLoop_test {p : Proto} (ps : List Proto) (sent : List Written)
    (hr : r.Prints banner answer) (hplain : ∀ p, ∀ l ∈ banner p, Plain l)
    (h : ¬ ∃ d ∈ w.desired, p.id ≠ d) :
    testLoop r w (p :: ps) ⟨sent, []⟩ =
      if (answer p).caps.ok then
        match w.refusal p (answer p).caps with
        | none => (⟨sent ++ [.test p], []⟩, .inr p)
        | some msg =>
          if w.desired = none then testLoop r w ps ⟨sent ++ [.test p], []⟩
          else (⟨sent ++ [.test p], []⟩, .inl (.exited msg))
      else testLoop r w ps ⟨sent ++ [.test p], []⟩ := by
  have hawait : awaitAnswer ([] ++ r.onTest p) = ((answer p).text, []) := by
    rw [hr p, List.nil_append]
    simpa using awaitAnswer_lines (hplain p) (answer p) []
  rw [testLoop, if_neg h]
  dsimp only
  rw [hawait, if_neg (text_ne_nil _), capsOf_text]

theorem not_supports {p : Proto} (h : ∃ d ∈ w.desired, p.id ≠ d) :
    w.Supports answer p = false := by
  obtain ⟨d, hd, hne⟩ := h
  rw [Option.mem_def] at hd
  simp [Wanted.Supports, hd, hne]

theorem supports_of_desired {p : Proto} (answer : Proto → TestAnswer)
    (h : ¬ ∃ d ∈ w.desired, p.id ≠ d) :
    w.Supports answer p =
      ((answer p).caps.ok && (w.refusal p (answer p).caps).isNone) := by
  have hall : (w.desired.all fun d => decide (p.id = d)) = true := by
    rw [Option.all_eq_true]
    intro d hd
    rw [decide_eq_true_eq]
    by_contra hne
    exact h ⟨d, hd, hne⟩
  rw [Wanted.Supports, hall, Bool.true_and]

/-- What the loop comes to, for any table: no code has been sent, and the entry is the first one
that supports what is asked for. -/
theorem testLoop_spec (hr : r.Prints banner answer) (hplain : ∀ p, ∀ l ∈ banner p, Plain l)
    {ps : List Proto} (hps : ps.Nodup) (sent : List Written) :
    ∃ sent', codes sent' = codes sent ∧
      match ps.find? (w.Supports answer) with
      | some p => testLoop r w ps ⟨sent, []⟩ = (⟨sent', []⟩, .inr p)
      | none => ∃ o, w.Unserved answer ps o ∧
          testLoop r w ps ⟨sent, []⟩ = (⟨sent', []⟩, .inl o) := by
  induction ps generalizing sent with
  | nil => exact ⟨sent, rfl, .returned 0, .inl ⟨rfl, by simp⟩, rfl⟩
  | cons p ps ih =>
    obtain ⟨hp, hps⟩ := List.nodup_cons.mp hps
    specialize ih hps
    -- The rest of the table, if the entry is not the one, and is no desired one that says `ok`.
    have hrest : ∀ sent₁, codes sent₁ = codes sent → w.Supports answer p = false →
        (w.desired = some p.id → (answer p).caps.ok = false) →
        testLoop r w (p :: ps) ⟨sent, []⟩ = testLoop r w ps ⟨sent₁, []⟩ →
        ∃ sent', codes sent' = codes sent ∧
          match (p :: ps).find? (w.Supports answer) with
          | some p' => testLoop r w (p :: ps) ⟨sent, []⟩ = (⟨sent', []⟩, .inr p')
          | none => ∃ o, w.Unserved answer (p :: ps) o ∧
              testLoop r w (p :: ps) ⟨sent, []⟩ = (⟨sent', []⟩, .inl o) := by
      intro sent₁ hcodes hsup hno hturn
      obtain ⟨sent', hsent', hend⟩ := ih sent₁
      refine ⟨sent', hsent'.trans hcodes, ?_⟩
      rw [List.find?_cons_of_neg (by simp [hsup]), hturn]
      split at hend
      · exact hend
      · obtain ⟨o, ho, hend⟩ := hend
        exact ⟨o, ho.cons hno, hend⟩
    by_cases hskip : ∃ d ∈ w.desired, p.id ≠ d
    · refine hrest sent rfl (not_supports hskip) ?_ (testLoop_skip hskip)
      intro hd
      obtain ⟨d, hd', hne⟩ := hskip
      rw [hd, Option.mem_def, Option.some_inj] at hd'
      exact absurd hd' hne
    · have hid : ∀ d ∈ w.desired, p.id = d := fun d hd => by_contra fun hne => hskip ⟨d, hd, hne⟩
      have hturn := testLoop_test ps sent hr hplain hskip
      have hsup := supports_of_desired answer hskip
      have hcodes : codes (sent ++ [.test p]) = codes sent := by simp
      cases hok : (answer p).caps.ok with
      | false =>
        -- the test fails: the next entry, even for the desired one
        rw [hok, if_neg Bool.false_ne_true] at hturn
        rw [hok, Bool.false_and] at hsup
        exact hrest _ hcodes hsup (fun _ => hok) hturn
      | true =>
        rw [hok, if_pos rfl] at hturn
        rw [hok, Bool.true_and] at hsup
        cases hrefusal : w.refusal p (answer p).caps with
        | none =>
          -- the entry supports everything
          rw [hrefusal] at hturn hsup
          refine ⟨_, hcodes, ?_⟩
          rw [List.find?_cons_of_pos hsup]
          exact hturn
        | some msg =>
          rw [hrefusal] at hturn hsup
          dsimp only at hturn
          cases hdesired : w.desired with
          | none =>
            rw [if_pos hdesired] at hturn
            exact hrest _ hcodes hsup (by simp [hdesired]) hturn
          | some d =>
            rw [if_neg (by simp [hdesired])] at hturn
            have hd : w.desired = some p.id := by rw [hdesired, hid d hdesired]
            -- No other entry is of the desired type.
            have hnone : (p :: ps).find? (w.Supports answer) = none := by
              rw [List.find?_cons_of_neg (by simp [hsup]), List.find?_eq_none]
              intro q hq
              rw [not_supports ⟨p.id, hd, fun heq => hp (Proto.id_injective heq ▸ hq)⟩]
              exact Bool.false_ne_true
            refine ⟨_, hcodes, ?_⟩
            rw [hnone]
            exact ⟨_, .inr ⟨p, List.mem_cons_self .., hd, hok, msg, hrefusal, rfl⟩, hturn⟩

theorem codes_startServer (root : Option Bytes) (p : Proto) (s : Session) :
    codes (startServer r root w p s).1.sent = codes s.sent ++ [p] := by
  rw [startServer]
  dsimp only
  generalize intoBuf _ = line
  split_ifs <;> simp

/-- **Which server code is sent**, if no line of the login is taken for an answer: that of the first
entry that is of the desired type and whose own test answered with all that is asked for. Without
one no code is sent; the result is 0, unless the test of the desired entry answered `ok` without a
capability that is asked for: then the program ends with the complaint. -/
theorem initSh_selects (hr : r.Prints banner answer) (hplain : ∀ p, ∀ l ∈ banner p, Plain l)
    (root : Option Bytes) :
    match sh.find? (w.Supports answer) with
    | some p => codes (initSh r root w).1.sent = [p]
    | none => codes (initSh r root w).1.sent = [] ∧ w.Unserved answer sh (initSh r root w).2 := by
  obtain ⟨sent', hsent', hend⟩ := testLoop_spec (w := w) hr hplain (by decide : sh.Nodup) []
  rw [initSh]
  split at hend
  · next p hfind =>
    rw [hend]
    exact (codes_startServer root p ⟨sent', []⟩).trans (by rw [hsent']; rfl)
  · obtain ⟨o, ho, hend⟩ := hend
    rw [hend]
    exact ⟨hsent', ho⟩

/-- A host with these lines in front of the answers of the two tests. -/
def loginOf (banner : Proto → List Bytes) (answer : Proto → TestAnswer) : Login where
  onTest p := (banner p ++ [(answer p).text]).map (· ++ [nl])
  onCode _ := [ascii "### 200" ++ [nl]]
  onInit _ := [ascii "### 200" ++ [nl]]

/-- A login that greets before the answer to the perl test. -/
def greeting : Proto → List Bytes
  | .perl => [ascii "Welcome"]
  | .shell => []

/-- The identity cannot be changed. -/
def noPreserve : Proto → TestAnswer := fun _ => .okStable

theorem initSh_selects_greeting :
    codes (initSh (loginOf greeting noPreserve) none ⟨none, true, false⟩).1.sent = [.perl] := by
  have hplain : ∀ p, ∀ l ∈ greeting p, Plain l := by
    rintro (_ | _) l hl
    · rw [List.mem_singleton.mp hl]
      exact ⟨by decide, by decide⟩
    · cases hl
  have hr : (loginOf greeting noPreserve).Prints greeting noPreserve := fun _ => rfl
  exact initSh_selects (w := ⟨none, true, false⟩) hr hplain none

/-- A login that says `look` before the answer to the perl test. -/
def looking : Proto → List Bytes
  | .perl => [ascii "look"]
  | .shell => []

/-- Perl is there, the commands of the shell server are not. -/
def onlyPerl : Proto → TestAnswer
  | .perl => .okStable
  | .shell => .failed

/-- Two ways in which the choice is another one. With the shell server desired and `preserve` asked
for, no entry supports that, and the program ends instead of returning 0. And where perl is the
entry to start, `look` is taken for the answer to the perl test, and the answer to the perl test for
one to the shell test. -/
theorem not_initSh_selects :
    (sh.find? (Wanted.Supports ⟨some (ascii "shell"), false, true⟩ noPreserve) = none ∧
      (initSh (loginOf greeting noPreserve) none ⟨some (ascii "shell"), false, true⟩).2 ≠
        .returned 0) ∧
    sh.find? (Wanted.Supports ⟨none, false, false⟩ onlyPerl) = some .perl ∧
      codes (initSh (loginOf looking onlyPerl) none ⟨none, false, false⟩).1.sent = [.shell] := by
  decide

end Shfs
