import Mathlib.Data.List.TakeWhile
import Shfs.Shfsmount

/-!
# The command template

With `cmd=` or `-c`, the command that `shfsmount` starts is made from a template: `main` cuts it at
its percent signs with `strsep` and looks at the letter behind each of them. `expand` is what the
manual page says about the template, from left to right.

The pieces that the loop adds to `cmd` are those of the expansion (`flatten_templateCalls`), so that
`cmd` is the expansion where that fits into it (`expandTemplate_eq`).
-/

namespace Shfs

open Lib

/-- `%` -/
abbrev percent : Byte := 37

/-- What is put in for the letters. -/
structure Placeholders : Type where
  user : Option Bytes
  host : Option Bytes
  port : Option Bytes
  deriving DecidableEq, Repr

/-- The `switch`: what a letter stands for, if it stands for anything. -/
def Placeholders.letter (v : Placeholders) : Byte → Option (Option Bytes)
  | 117 => some v.user
  | 104 => some v.host
  | 80 => some v.port
  | _ => none

/-- `strsep(&s, "%")` of a string: the piece, and `s` behind it, which can be NULL. -/
def strsep (s : Bytes) : Bytes × Option Bytes :=
  (s.takeWhile (· ≠ percent),
    if percent ∈ s then some ((s.dropWhile (· ≠ percent)).drop 1) else none)

theorem strsep_of_notMem {s : Bytes} (h : percent ∉ s) : strsep s = (s, none) := by
  have hs : ∀ b ∈ s, decide (b ≠ percent) = true := fun b hb =>
    decide_eq_true fun hbp => h (hbp ▸ hb)
  rw [strsep, if_neg h, List.takeWhile_eq_self_iff.mpr hs]

theorem strsep_append {s : Bytes} (h : percent ∉ s) (t : Bytes) :
    strsep (s ++ percent :: t) = (s, some t) := by
  have hs : ∀ b ∈ s, decide (b ≠ percent) = true := fun b hb =>
    decide_eq_true fun hbp => h (hbp ▸ hb)
  rw [strsep, if_pos (by simp), List.takeWhile_append_of_pos hs, List.dropWhile_append_of_pos hs]
  simp

/-- There is less behind a percent sign. -/
theorem length_strsep_lt {s t : Bytes} (h : (strsep s).2 = some t) : t.length < s.length := by
  by_cases hmem : percent ∈ s
  · obtain ⟨p, q, rfl, hp⟩ := List.eq_append_cons_of_mem hmem
    rw [strsep_append hp] at h
    obtain rfl := Option.some.inj h
    simp only [List.length_append, List.length_cons]
    omega
  · rw [strsep_of_notMem hmem] at h
    cases h

/-- The texts that the loop adds to `cmd`, one call of `strnconcat` after the other. -/
def templateCalls (v : Placeholders) (tmp : Bytes) : List Bytes :=
  match _h : strsep tmp with
  | (s, none) => [s]
  | (s, some tmp) =>
    match tmp.head?.bind v.letter with
    | some value => s :: value.toList ++ templateCalls v tmp.tail
    | none => s :: [percent] :: templateCalls v tmp
  termination_by tmp.length
  decreasing_by
  · rw [List.length_tail]
    exact (Nat.sub_le ..).trans_lt (length_strsep_lt (congrArg Prod.snd _h))
  · exact length_strsep_lt (congrArg Prod.snd _h)

/-- `cmd` behind the loop. -/
def expandTemplate (v : Placeholders) (cmdTemplate : Bytes) : Bytes :=
  strnconcat [] (templateCalls v cmdTemplate)

/-- **The expansion of a template**, from left to right: a percent sign is replaced together with a
letter behind it that stands for something. -/
def expand (v : Placeholders) : Bytes → Bytes
  | [] => []
  | [b] => [b]
  | b :: c :: t =>
    match if b = percent then v.letter c else none with
    | some value => value.getD [] ++ expand v t
    | none => b :: expand v (c :: t)

variable {v : Placeholders}

theorem templateCalls_of_notMem {t : Bytes} (h : percent ∉ t) : templateCalls v t = [t] := by
  rw [templateCalls]
  split
  · rename_i hs
    rw [strsep_of_notMem h] at hs
    exact congrArg (· :: []) (congrArg Prod.fst hs).symm
  · rename_i hs
    rw [strsep_of_notMem h] at hs
    cases hs

/-- A percent sign, with the piece in front of it. -/
theorem templateCalls_append {s : Bytes} (h : percent ∉ s) (t : Bytes) :
    templateCalls v (s ++ percent :: t) = s ::
      match t.head?.bind v.letter with
      | some value => value.toList ++ templateCalls v t.tail
      | none => [percent] :: templateCalls v t := by
  rw [templateCalls]
  split
  · rename_i hs
    rw [strsep_append h] at hs
    cases hs
  · rename_i hs
    rw [strsep_append h] at hs
    cases hs
    cases t.head?.bind v.letter <;> rfl

theorem expand_cons {b : Byte} (hb : b ≠ percent) (t : Bytes) : expand v
    (b :: t) = b :: expand v t := by
  cases t with
  | nil => rfl
  | cons c t => rw [expand, if_neg hb]

/-- A text without percent signs is copied. -/
theorem expand_append {s : Bytes} (h : percent ∉ s) (t : Bytes) :
    expand v (s ++ t) = s ++ expand v t := by
  induction s with
  | nil => rfl
  | cons b s ih =>
    have hb : b ≠ percent := fun hb => h (hb ▸ List.mem_cons_self ..)
    rw [List.cons_append, expand_cons hb, ih fun hs => h (List.mem_cons_of_mem _ hs),
      List.cons_append]

theorem expand_percent (t : Bytes) : expand v (percent :: t) =
    match t.head?.bind v.letter with
    | some value => value.getD [] ++ expand v t.tail
    | none => percent :: expand v t := by
  cases t with
  | nil => rfl
  | cons c t =>
    rw [expand, if_pos rfl]
    rfl

/-- The pieces are those of the expansion. -/
theorem flatten_templateCalls (v : Placeholders) (t : Bytes) :
    (templateCalls v t).flatten = expand v t := by
  induction hn : t.length using Nat.strong_induction_on generalizing t with
  | _ n ih =>
    by_cases hmem : percent ∈ t
    · obtain ⟨s, u, rfl, hs⟩ := List.eq_append_cons_of_mem hmem
      have hlen : u.length < n := by
        rw [← hn, List.length_append, List.length_cons]
        omega
      rw [templateCalls_append hs, expand_append hs, expand_percent, List.flatten_cons]
      congr 1
      cases u.head?.bind v.letter with
      | some value =>
        have htail : u.tail.length < n := by
          rw [List.length_tail]
          omega
        rw [List.flatten_append, ih _ htail u.tail rfl]
        cases value with
        | none => rfl
        | some x => exact congrArg (· ++ expand v u.tail) (List.append_nil x)
      | none => rw [List.flatten_cons, ih _ hlen u rfl, List.singleton_append]
    · rw [templateCalls_of_notMem hmem]
      simpa [expand] using (expand_append (v := v) hmem []).symm

/-- `strnconcat` cuts no piece that is short enough. -/
theorem strnconcat_flatten (str : Bytes) {pieces : List Bytes}
    (h : ∀ s ∈ pieces, s.length ≤ BUFFER_MAX) : strnconcat str pieces = str ++ pieces.flatten := by
  induction pieces generalizing str with
  | nil => exact (List.append_nil str).symm
  | cons s pieces ih =>
    obtain ⟨hs, hpieces⟩ := List.forall_mem_cons.mp h
    have hcall : strnconcat str (s :: pieces) = strnconcat (str ++ s.take BUFFER_MAX) pieces := rfl
    rw [hcall, ih _ hpieces, List.take_of_length_le hs, List.flatten_cons, List.append_assoc]

/-- **What is in `cmd`** is the expansion of the template, where that fits in: each letter behind a
percent sign is replaced by what it stands for, and everything else is kept. `strsep` cuts the
template at its percent signs, so a sign in front of another one, or at the end, gives an empty
piece. -/
theorem expandTemplate_eq (v : Placeholders) (t : Bytes) (h : (expand v t).length < BUFFER_MAX) :
    expandTemplate v t = expand v t := by
  rw [← flatten_templateCalls] at h ⊢
  apply strnconcat_flatten
  intro s hs
  exact (List.sublist_flatten_of_mem hs).length_le.trans h.le

/-- Percent signs behind each other, one at the end, and letters behind each other. -/
theorem expandTemplate_eq_signs :
    expandTemplate ⟨some (ascii "%h"), none, some (ascii "22")⟩ (ascii "a%%u%h%P%%") =
      ascii "a%%h22%%" := by
  have h := expandTemplate_eq ⟨some (ascii "%h"), none, some (ascii "22")⟩ (ascii "a%%u%h%P%%")
    (by decide)
  rw [h]
  decide

end Shfs
