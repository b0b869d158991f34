import Shfs.Proto
import Shfs.PerlServer

/-!
# The root in the `s_init` line

`init_sh` writes the root between two single quotes, as it is, and cuts the line at the end of its
buffer. The server reads the line with the same `getline` as all later commands, for which the
kernel quotes what it sends.

No octet of a line adds more than one to the words that are read from it (`scan_weight`), and a
quote that closes the word in the middle of the root loses one. So there is no root with a quote in
it that comes through, nor a line that has been cut: `rootArrives_iff`.
-/

namespace Shfs

open Lib

/-! ## The line -/

/-- The words of the flags. -/
def flagWords (w : Wanted) : List Bytes :=
  (if w.stable then [ascii "stable"] else []) ++ (if w.preserve then [ascii "preserve"] else [])

/-- The words of the line. -/
def initWords (root : Bytes) (w : Wanted) : List Bytes := ascii "s_init" :: root :: flagWords w

/-- The line, before it is cut. -/
def initLine (root : Bytes) (w : Wanted) : Bytes :=
  ascii "s_init '" ++ root ++ ascii "'" ++ (if w.stable then ascii " stable" else []) ++
    (if w.preserve then ascii " preserve" else []) ++ [nl]

/-- What `s_init` should leave of a server that has been started: the root that was asked for, or
the home directory for none, and the two capabilities; and all else as it was. -/
def Perl.Initialised {σ : Type} (s s' : Perl σ) (home root : Bytes) (w : Wanted) : Prop :=
  s' = { s with
    root := if root = [] then home else root
    stable := w.stable
    preserve := w.preserve }

/-- **The root reaches the server**: what `init_sh` sends it is a line with these words, after which
it has the root and the flags; without a line `init_sh` fails. -/
structure RootArrives (r : Login) (root : Option Bytes) (w : Wanted) : Prop where
  line : ∀ text, .line text ∈ (initSh r root w).1.sent → ∀ rest,
    getline (text ++ rest) = .line (initWords (root.getD []) w) rest
  server : ∀ text, .line text ∈ (initSh r root w).1.sent → ∀ {σ : Type} (os : OS σ) (home : Bytes)
    (s : Perl σ), s.stable = false → s.preserve = false →
    ∃ words s', getline text = .line words [] ∧ s.mainLoop os home words = s'.answer 200 ∧
      s.Initialised s' home (root.getD []) w
  failed : (∀ text, .line text ∉ (initSh r root w).1.sent) → (initSh r root w).2 ≠ .returned 1

/-- The words, as the kernel would write them but for the expansion of the root. -/
theorem initLine_eq (root : Bytes) (w : Wanted) :
    initLine root w = ascii "s_init '" ++ root ++ ascii "'" ++
      (flagWords w).flatMap (sp :: ·) ++ [nl] := by
  have hstable : ascii " stable" = sp :: ascii "stable" := rfl
  have hpreserve : ascii " preserve" = sp :: ascii "preserve" := rfl
  rw [initLine, flagWords, hstable, hpreserve]
  cases w.stable <;> cases w.preserve <;> simp

/-- The flags are words without blanks. -/
theorem bareWord_flagWords (w : Wanted) : ∀ v ∈ flagWords w, BareWord v := by
  have hstable : BareWord (ascii "stable") := by decide
  have hpreserve : BareWord (ascii "preserve") := by decide
  rw [flagWords]
  cases w.stable <;> cases w.preserve <;> simp [hstable, hpreserve]

/-- **A root without quotes** comes through, whatever else is in it, since nothing but a quote ends
what is between quotes. -/
theorem getline_initLine {root : Bytes} (h : apos ∉ root) (w : Wanted) (rest : Bytes) :
    getline (initLine root w ++ rest) = .line (initWords root w) rest := by
  have hroot : (Word.quoted root).text = apos :: root ++ [apos] := by
    rw [Word.text, quoteText_eq_self h]
  have hline : initLine root w ++ rest = joinWith sp ((Word.bare (ascii "s_init") ::
      Word.quoted root :: (flagWords w).map Word.bare).map Word.text) ++ nl :: rest := by
    have hstart : ascii "s_init '" = ascii "s_init" ++ [sp, apos] := rfl
    have hend : ascii "'" = [apos] := rfl
    rw [initLine_eq, List.map_cons, joinWith_flatMap, List.map_cons, List.flatMap_cons, hroot,
      hstart, hend]
    simp [Word.text, Function.comp_def]
  have hok : ∀ v ∈ Word.bare (ascii "s_init") :: Word.quoted root :: (flagWords w).map Word.bare,
      v.Ok := by
    rintro v (_ | ⟨_, _ | ⟨_, hv⟩⟩)
    · exact (by decide : BareWord (ascii "s_init"))
    · trivial
    · obtain ⟨f, hf, rfl⟩ := List.mem_map.mp hv
      exact bareWord_flagWords w f hf
  rw [getline, hline, Getline.init, scan_joined (List.cons_ne_nil _ _) hok]
  simp [Word.value, Function.comp_def, initWords]

/-- `s_init` with these words. -/
theorem mainLoop_initWords {σ : Type} (os : OS σ) (home : Bytes) (s : Perl σ)
    (hstable : s.stable = false) (hpreserve : s.preserve = false) (root : Bytes) (w : Wanted) :
    ∃ s', s.mainLoop os home (initWords root w) = s'.answer 200 ∧
      s.Initialised s' home root w := by
  refine ⟨_, ?_, rfl⟩
  have hdispatch : s.mainLoop os home (initWords root w) = s.sInit home (root :: flagWords w) := by
    rw [initWords, Perl.mainLoop, hpreserve]
    rfl
  have hwords : ((root :: flagWords w).drop 1).takeWhile (fun v => v ≠ [] ∧ v ≠ ascii "0") =
      flagWords w := by
    rw [flagWords]
    cases w.stable <;> cases w.preserve <;> rfl
  have hs : decide (ascii "stable" ∈ flagWords w) = w.stable := by
    rw [flagWords]
    cases w.stable <;> cases w.preserve <;> rfl
  have hp : decide (ascii "preserve" ∈ flagWords w) = w.preserve := by
    rw [flagWords]
    cases w.stable <;> cases w.preserve <;> rfl
  rw [hdispatch, Perl.sInit, hwords, hs, hp, hstable, hpreserve, Bool.false_or, Bool.false_or]
  rfl

/-! ## What a line can bring -/

/-- The octets of the words, and one for the end of each. -/
def wordsWeight (words : List Bytes) : ℕ := (words.map (·.length + 1)).sum

/-- What has been collected. -/
def Getline.weight (g : Getline) : ℕ := wordsWeight g.args + g.str.length

theorem wordsWeight_concat (words : List Bytes) (v : Bytes) :
    wordsWeight (words ++ [v]) = wordsWeight words + v.length + 1 := by
  simp [wordsWeight, Nat.add_assoc]

@[simp] theorem weight_push (g : Getline) : g.push.weight = g.weight + 1 :=
  wordsWeight_concat g.args g.str

@[simp] theorem wordsWeight_finish (g : Getline) : wordsWeight g.finish = g.weight + 1 :=
  wordsWeight_concat g.args g.str

/-- An octet brings no more than one. -/
theorem getlineStep_weight (g : Getline) (c : Byte) :
    (∀ g', getlineStep g c = .inl g' → g'.weight ≤ g.weight + 1) ∧
      ∀ words, getlineStep g c = .inr words → wordsWeight words ≤ g.weight + 1 := by
  constructor
  · intro g' h
    unfold getlineStep at h
    split at h <;> split_ifs at h <;> cases h
    all_goals
      first
        | exact (weight_push g).le
        | simp only [Getline.weight, List.length_append, List.length_singleton]
          omega
  · intro words h
    unfold getlineStep at h
    split at h <;> split_ifs at h <;> cases h <;>
      first | exact (wordsWeight_finish g).le | exact (Nat.le_add_right ..).trans (Nat.le_succ _)

/-- **A line brings no more than its octets.** Each word weighs its octets and one more for what
ends it. -/
theorem scan_weight {g : Getline} {bs rest : Bytes} {words : List Bytes}
    (h : scan getlineStep g bs = .inr (words, rest)) :
    wordsWeight words + rest.length ≤ g.weight + bs.length := by
  induction bs generalizing g with
  | nil => cases h
  | cons c bs ih =>
    obtain ⟨hinl, hinr⟩ := getlineStep_weight g c
    rw [List.length_cons]
    cases hstep : getlineStep g c with
    | inl k =>
      rw [scan_cons_inl hstep] at h
      have hk := hinl k hstep
      have := ih h
      omega
    | inr words' =>
      rw [scan_cons_inr hstep] at h
      cases h
      have := hinr words hstep
      omega

/-- Behind a closing quote the word ends, or an octet is lost. -/
theorem scan_closed {u bs rest : Bytes} {args words : List Bytes}
    (h : scan getlineStep ⟨.closed, u, args⟩ bs = .inr (words, rest)) :
    args ++ [u] <+: words ∨
      wordsWeight words + rest.length + 1 ≤ wordsWeight args + u.length + bs.length := by
  cases bs with
  | nil => cases h
  | cons c bs =>
    by_cases hnl : c = nl
    · rw [hnl, scan_cons_inr (a := args ++ [u]) rfl] at h
      cases h
      exact Or.inl (List.prefix_refl _)
    by_cases hsp : c = sp
    · rw [hsp, scan_cons_inl (k := ⟨.between, [], args ++ [u]⟩) rfl] at h
      exact Or.inl <| scan_args_prefix.2 words rest h
    · right
      have hstep : ∃ state, getlineStep ⟨.closed, u, args⟩ c = .inl ⟨state, u, args⟩ := by
        simp only [getlineStep, hnl, hsp, if_false]
        split_ifs
        · exact ⟨_, rfl⟩
        · exact ⟨_, rfl⟩
        · exact ⟨_, rfl⟩
      obtain ⟨state, hstep⟩ := hstep
      rw [scan_cons_inl hstep] at h
      exact Nat.succ_le_succ (scan_weight h)

/-! ## The lines that do not come through -/

theorem length_flatMap_sp (words : List Bytes) :
    (words.flatMap (sp :: ·)).length = wordsWeight words := by
  rw [List.length_flatMap, wordsWeight]
  rfl

/-- All octets of the line are needed, but for the quotes. -/
theorem length_initLine (root : Bytes) (w : Wanted) :
    (initLine root w).length = wordsWeight (initWords root w) + 2 := by
  have hs : (ascii "s_init '").length = 8 := rfl
  have hq : (ascii "'").length = 1 := rfl
  have hi : (ascii "s_init").length = 6 := rfl
  have hwords : wordsWeight (initWords root w) =
      (ascii "s_init").length + 1 + (root.length + 1 + wordsWeight (flagWords w)) := rfl
  rw [initLine_eq, hwords]
  simp only [List.length_append, length_flatMap_sp, List.length_singleton]
  omega

/-- The first quote behind the one that `init_sh` has opened. -/
theorem exists_closing (root : Bytes) (w : Wanted) :
    ∃ u v, initLine root w = ascii "s_init '" ++ (u ++ apos :: v) ∧ apos ∉ u ∧
      (u = root → apos ∉ root) := by
  have hq : ascii "'" = [apos] := rfl
  by_cases hmem : apos ∈ root
  · obtain ⟨u, q, rfl, hu⟩ := List.eq_append_cons_of_mem hmem
    refine ⟨u, q ++ ascii "'" ++ (flagWords w).flatMap (sp :: ·) ++ [nl], ?_, hu, ?_⟩
    · rw [initLine_eq]
      simp
    · intro h
      have hlen := congrArg List.length h
      simp at hlen
  · refine ⟨root, (flagWords w).flatMap (sp :: ·) ++ [nl], ?_, hmem, fun _ => hmem⟩
    rw [initLine_eq, hq]
    simp

/-- The scanner behind the opening quote. -/
theorem scan_opening (bs : Bytes) : scan getlineStep .init (ascii "s_init '" ++ bs) =
    scan getlineStep ⟨.quoted, [], [ascii "s_init"]⟩ bs := by
  rfl

/-- The answer, if the line is complete. -/
theorem scan_of_getline {bs rest : Bytes} {words : List Bytes} (hrest : rest ≠ [])
    (h : getline bs = .line words rest) : scan getlineStep .init bs = .inr (words, rest) := by
  rw [getline] at h
  split at h
  · rename_i hscan
    cases h
    exact hscan
  · split at h
    · cases h
    · cases h
      exact absurd rfl hrest

/-- **A line that is read as it is meant** has no quote in its root, and has not been cut. -/
theorem of_getline_intoBuf {root : Bytes} {w : Wanted}
    (h : ∀ rest, getline (intoBuf (initLine root w) ++ rest) = .line (initWords root w) rest) :
    apos ∉ root ∧ (initLine root w).length < BUFFER_MAX := by
  have hscan := scan_of_getline (List.cons_ne_nil _ _) (h [nl])
  obtain ⟨u, v, hline, hu, hroot⟩ := exists_closing root w
  have hlen := length_initLine root w
  have hopening : (ascii "s_init '").length = 8 := rfl
  have hcut : intoBuf (initLine root w) = ascii "s_init '" ++ (u ++ apos :: v).take 1015 := by
    rw [hline, intoBuf, List.take_append, List.take_of_length_le (by rw [hopening]; decide),
      hopening]
    rfl
  rw [hcut, List.append_assoc, scan_opening, List.take_append] at hscan
  have hshort : u.length < 1015 := by
    by_contra hge
    have htake : (apos :: v).take (1015 - u.length) = [] := by
      rw [Nat.sub_eq_zero_of_le (Nat.not_lt.mp hge), List.take_zero]
    have hu' : apos ∉ u.take 1015 := fun hmem => hu (List.mem_of_mem_take hmem)
    rw [htake, List.append_nil, scan_quoted_self hu'] at hscan
    cases hscan
  obtain ⟨k, hk⟩ := Nat.exists_eq_add_of_lt hshort
  have hsub : 1015 - u.length = k + 1 := by omega
  rw [List.take_of_length_le hshort.le, hsub, List.take_succ_cons, List.append_assoc,
    scan_quoted_self hu, List.cons_append, scan_cons_inl (k := ⟨.closed, u, [ascii "s_init"]⟩) rfl]
    at hscan
  have hstart : wordsWeight [ascii "s_init"] = 7 := rfl
  have hweight := scan_weight hscan
  simp only [Getline.weight, List.length_append, List.length_singleton, hstart] at hweight
  have hfull : (initLine root w).length = 9 + u.length + v.length := by
    rw [hline, List.length_append, List.length_append, List.length_cons, hopening]
    omega
  -- nothing has been cut away, since all of it is needed
  have htake : (v.take k).length = min k v.length := List.length_take
  have hle : v.length ≤ k := by omega
  have hfits : (initLine root w).length < BUFFER_MAX := by
    change (initLine root w).length < 1024
    omega
  refine ⟨hroot ?_, hfits⟩
  rcases scan_closed hscan with hargs | hlost
  · obtain ⟨ws, hws⟩ := hargs
    simp only [initWords, List.cons_append, List.nil_append, List.cons.injEq, true_and] at hws
    exact hws.1
  · simp only [List.length_append, List.length_singleton, hstart] at hlost
    omega

/-! ## What `init_sh` sends -/

section Sent

variable {r : Login} {root : Option Bytes} {w : Wanted} {text : Bytes}

/-- The tests are not lines. -/
theorem line_mem_testLoop {ps : List Proto} {s : Session}
    (h : .line text ∈ (testLoop r w ps s).1.sent) : .line text ∈ s.sent := by
  induction ps generalizing s with
  | nil => exact h
  | cons p ps ih =>
    have htest : ∀ {s' : Session}, s'.sent = s.sent ++ [.test p] → .line text ∈ s'.sent →
        .line text ∈ s.sent := by
      intro s' hs' hmem
      rw [hs'] at hmem
      simpa using hmem
    rw [testLoop] at h
    split at h
    · exact ih h
    dsimp only at h
    split at h
    · exact htest rfl h
    split at h
    · split at h
      · exact htest rfl h
      · split at h
        · exact htest rfl (ih h)
        · exact htest rfl h
    · exact htest rfl (ih h)

/-- Without an entry to start, `init_sh` fails. -/
theorem testLoop_fails {ps : List Proto} {s s' : Session} {o : InitResult}
    (h : testLoop r w ps s = (s', .inl o)) : o ≠ .returned 1 := by
  induction ps generalizing s with
  | nil =>
    cases h
    simp
  | cons p ps ih =>
    rw [testLoop] at h
    split at h
    · exact ih h
    dsimp only at h
    split at h
    · cases h
      simp
    split at h
    · split at h
      · cases h
      · split at h
        · exact ih h
        · cases h
          simp
    · exact ih h

/-- The start of the server, with the line or without. -/
theorem startServer_cases (r : Login) (root : Option Bytes) (w : Wanted) (p : Proto) (s : Session) :
    ((nextReply (s.inbox ++ r.onCode p)).1 ≠ ascii "### 200" ++ [nl] ∧ ∃ inbox,
      startServer r root w p s = (⟨s.sent ++ [.code p], inbox⟩, .returned 0)) ∨
    ((nextReply (s.inbox ++ r.onCode p)).1 = ascii "### 200" ++ [nl] ∧ ∃ inbox o,
      startServer r root w p s =
        (⟨s.sent ++ [.code p] ++ [.line (intoBuf (initLine (root.getD []) w))], inbox⟩, o)) := by
  by_cases h : (nextReply (s.inbox ++ r.onCode p)).1 = ascii "### 200" ++ [nl]
  · refine Or.inr ⟨h, ?_⟩
    rw [startServer]
    dsimp only
    rw [if_neg (not_not_intro h), ← initLine]
    split
    · exact ⟨_, _, rfl⟩
    · exact ⟨_, _, rfl⟩
  · refine Or.inl ⟨h, (nextReply (s.inbox ++ r.onCode p)).2, ?_⟩
    rw [startServer]
    exact if_pos h

/-- The only line is that with the root. -/
theorem line_mem_initSh (h : .line text ∈ (initSh r root w).1.sent) :
    text = intoBuf (initLine (root.getD []) w) := by
  have hloop : ∀ {s' o}, testLoop r w sh ⟨[], []⟩ = (s', o) → .line text ∉ s'.sent := by
    intro s' o hs hmem
    have hnil := line_mem_testLoop (s := ⟨[], []⟩) (by rw [hs]; exact hmem)
    cases hnil
  rw [initSh] at h
  split at h
  · rename_i hs
    exact absurd h (hloop hs)
  · rename_i s' p hs
    rcases startServer_cases r root w p s' with ⟨-, inbox, heq⟩ | ⟨-, inbox, o, heq⟩
    · rw [heq] at h
      simp [hloop hs] at h
    · rw [heq] at h
      simpa [hloop hs] using h

/-- The server is only started with that line. -/
theorem initSh_fails (h : ∀ text, .line text ∉ (initSh r root w).1.sent) :
    (initSh r root w).2 ≠ .returned 1 := by
  rw [initSh] at h ⊢
  split at h
  · rename_i hs
    exact testLoop_fails hs
  · rename_i s' p hs
    rcases startServer_cases r root w p s' with ⟨-, inbox, heq⟩ | ⟨-, inbox, o, heq⟩
    · rw [heq]
      simp
    · exact absurd (by rw [heq]; simp) (h (intoBuf (initLine (root.getD []) w)))

/-- A host with which the line is sent. -/
def askedHost : Login := loginOf (fun _ => []) fun _ => .okStablePreserve

theorem line_askedHost {p : Proto} (hp : p ∈ sh) (hd : ∀ d ∈ w.desired, p.id = d) :
    .line (intoBuf (initLine (root.getD []) w)) ∈ (initSh askedHost root w).1.sent := by
  have hsupports : w.Supports (fun _ => .okStablePreserve) p = true := by
    rw [supports_of_desired _ (by simpa using hd)]
    cases hs : w.stable <;> cases hpr : w.preserve <;>
      simp [TestAnswer.caps, Wanted.refusal, hs, hpr]
  obtain ⟨q, hq⟩ := Option.isSome_iff_exists.mp (List.find?_isSome.mpr ⟨p, hp, hsupports⟩)
  have hprints : askedHost.Prints (fun _ => []) fun _ => .okStablePreserve := fun _ => rfl
  obtain ⟨sent, -, hend⟩ := testLoop_spec (w := w) hprints (by simp) (by decide : sh.Nodup) []
  rw [hq] at hend
  dsimp only at hend
  rw [initSh, hend]
  dsimp only
  rcases startServer_cases askedHost root w q ⟨sent, []⟩ with ⟨hno, -⟩ | ⟨-, inbox, o, heq⟩
  · exact absurd rfl hno
  · rw [heq]
    simp

/-- Without an entry of the desired type nothing is sent. -/
theorem testLoop_none {ps : List Proto} (h : ∀ p ∈ ps, ∃ d ∈ w.desired, p.id ≠ d) (s : Session) :
    testLoop r w ps s = (s, .inl (.returned 0)) := by
  induction ps with
  | nil => rfl
  | cons p ps ih =>
    rw [testLoop_skip (h p (List.mem_cons_self ..))]
    exact ih fun q hq => h q (List.mem_cons_of_mem _ hq)

theorem entry_of_line (h : .line text ∈ (initSh r root w).1.sent) :
    ∃ p ∈ sh, ∀ d ∈ w.desired, p.id = d := by
  by_contra hno
  push Not at hno
  rw [initSh, testLoop_none hno] at h
  cases h

/-- **The root reaches the server, whatever the host does**, exactly if there is no quote in it and
the line fits into the buffer. `s_init` is sent with the root as it is, without `replace_quote`, and
cut at 1023 octets. -/
theorem rootArrives_iff (root : Option Bytes) (w : Wanted) :
    (∀ r, RootArrives r root w) ↔ ((∃ p ∈ sh, ∀ d ∈ w.desired, p.id = d) →
      apos ∉ root.getD [] ∧ (initLine (root.getD []) w).length < BUFFER_MAX) := by
  constructor
  · rintro h ⟨p, hp, hd⟩
    exact of_getline_intoBuf ((h askedHost).line _ (line_askedHost hp hd))
  · intro h r
    have hline : ∀ text, .line text ∈ (initSh r root w).1.sent →
        text = initLine (root.getD []) w ∧ apos ∉ root.getD [] := by
      intro text htext
      obtain ⟨hroot, hfits⟩ := h (entry_of_line htext)
      refine ⟨(line_mem_initSh htext).trans ?_, hroot⟩
      exact List.take_of_length_le (Nat.le_pred_of_lt hfits)
    refine ⟨?_, ?_, initSh_fails⟩
    · intro text htext rest
      obtain ⟨rfl, hroot⟩ := hline text htext
      exact getline_initLine hroot w rest
    · intro text htext σ os home s hstable hpreserve
      obtain ⟨rfl, hroot⟩ := hline text htext
      obtain ⟨s', hs', hinit⟩ := mainLoop_initWords os home s hstable hpreserve (root.getD []) w
      have hget := getline_initLine hroot w []
      rw [List.append_nil] at hget
      exact ⟨_, s', hget, hs', hinit⟩

/-- **A home directory with a quote in its name** is another one for the server. -/
theorem not_rootArrives_quote :
    ¬ ∀ (r : Login) (root : Option Bytes) (w : Wanted), 0 ∉ root.getD [] →
      RootArrives r root w := by
  intro h
  have harrives := h askedHost (some (ascii "/home/o'neil")) ⟨none, false, false⟩ (by decide)
  have hsent : .line (intoBuf (initLine (ascii "/home/o'neil") ⟨none, false, false⟩)) ∈
      (initSh askedHost (some (ascii "/home/o'neil")) ⟨none, false, false⟩).1.sent :=
    line_askedHost (List.mem_cons_self ..) (by simp)
  exact absurd (by decide) (of_getline_intoBuf (harrives.line _ hsent)).1

end Sent

end Shfs
