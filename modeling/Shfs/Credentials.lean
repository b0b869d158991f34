import Shfs.Lib.Run
import Shfs.CommandLine

/-!
# The credential switch of the Perl server

With `preserve`, every command line carries the uid and the groups of the calling user, and the
main loop switches to them before it runs the command. The loop remembers the text it last
assigned to `$)` and skips the way back to uid 0 when the next groups field is the same text.

`Ids` is the part of the process the switch touches, `Ids.mainLoop` one turn of the loop. A field
with one group is doubled before it is remembered, so it never equals the remembered text; a field
with several groups does, and then the silent failure of `$> = $uid` shows: `runsAs_iff` says
exactly when the body of a command runs as its own user.
-/

namespace Shfs

open Lib

/-- The effective ids of the server process (real and saved uid are 0), and `$old_groups`. -/
structure Ids : Type where
  euid : ℕ
  egid : ℕ
  groups : List ℕ
  oldGroups : Bytes
  deriving DecidableEq, Repr

namespace Ids

/-- `$> = $uid`: without effect unless the current effective uid is 0 or the new one is the real,
the saved or the current effective uid. -/
def setEuid (s : Ids) (uid : ℕ) : Ids :=
  if s.euid = 0 ∨ uid = 0 ∨ uid = s.euid then { s with euid := uid } else s

/-- The numbers of a list separated by spaces. -/
def numbers (text : Bytes) : List ℕ := ((text.splitOn sp).filter (· ≠ [])).map decVal

/-- `$) = $groups`: the first number becomes the effective gid, the others, if there are any, the
supplementary groups. Without effect unless the effective uid is 0. -/
def setGroups (s : Ids) (text : Bytes) : Ids :=
  if s.euid = 0 then
    match numbers text with
    | [] => { s with egid := 0 }
    | [g] => { s with egid := g }
    | g :: gs => { s with egid := g, groups := gs }
  else s

/-- The text assigned to `$)`: a field with one group is doubled. -/
def groupsText (groups : Bytes) : Bytes :=
  if sp ∈ groups then groups else groups ++ [sp] ++ groups

/-- The first half of the switch, `if ($groups ne $old_groups)`. -/
def switchGroups (s : Ids) (groups : Bytes) : Ids :=
  if groups ≠ s.oldGroups then
    { (s.setEuid 0).setGroups (groupsText groups) with oldGroups := groupsText groups }
  else s

/-- The switch, for the uid and the groups field of a command line. -/
def switch (s : Ids) (uid groups : Bytes) : Ids :=
  let s := s.switchGroups groups
  if decVal uid ≠ s.euid then s.setEuid (decVal uid) else s

/-- One turn of the main loop, up to the body of the command; a shift from an empty list gives
the undefined value, which reads as the empty string. -/
def mainLoop (s : Ids) (args : List Bytes) : Ids :=
  match args with
  | [] => s
  | _ :: args => s.switch (args.getD 0 []) (args.getD 1 [])

/-- The groups of the process, the effective gid first. -/
def groupList (s : Ids) : List ℕ := s.egid :: s.groups

end Ids

/-! ## Users -/

/-- The groups field of a user's commands. -/
def Cred.groupsField (c : Cred) : Bytes := joinWith sp (c.groups.map fun g => dec g.toNat)

/-- A command line with the credentials of the user behind it, as the client builds it on a mount
with `preserve`. -/
structure UserLine : Type where
  cmd : Bytes
  cred : Cred
  args : List Bytes

/-- The words the server reads. -/
def UserLine.words (l : UserLine) : List Bytes := l.cmd :: meantCred true l.cred ++ l.args

/-- The process has the ids of this user: the effective uid, and the same groups. -/
def Ids.Is (s : Ids) (c : Cred) : Prop :=
  s.euid = c.uid.toNat ∧ ∀ g, g ∈ s.groupList ↔ g ∈ c.groups.map UInt32.toNat

instance (s : Ids) (c : Cred) : Decidable (s.Is c) :=
  decidable_of_iff (s.euid = c.uid.toNat ∧
      (∀ g ∈ s.groupList, g ∈ c.groups.map UInt32.toNat) ∧
        ∀ g ∈ c.groups.map UInt32.toNat, g ∈ s.groupList)
    (and_congr_right fun _ =>
      ⟨fun h g => ⟨h.1 g, h.2 g⟩, fun h => ⟨fun g => (h g).mp, fun g => (h g).mpr⟩⟩)

namespace Ids

/-- One turn of the main loop for a user's command line: the ids that its body is run with, and that
are left behind it. -/
def serve (s : Ids) (l : UserLine) : Ids := s.mainLoop l.words

/-- The body of the command runs with the ids of its own user: his uid, his gid and his groups. -/
def RunsAs (s : Ids) (l : UserLine) : Prop := (s.serve l).Is l.cred

/-- The user has a group, and the switch goes through uid 0 or does not have to. -/
def Switchable (s : Ids) (l : UserLine) : Prop :=
  l.cred.groups ≠ [] ∧
    (l.cred.groupsField ≠ s.oldGroups ∨ s.euid = 0 ∨ l.cred.uid = 0 ∨ l.cred.uid.toNat = s.euid)

/-- What the loop remembers, if it is a list of groups, is what the groups of the process are. -/
def Remembers (s : Ids) : Prop :=
  numbers s.oldGroups ≠ [] → s.groupList = numbers s.oldGroups

/-! ## Reading the groups field -/

theorem sp_notMem_dec (n : ℕ) : sp ∉ dec n := fun h =>
  absurd (isDigit_of_mem_dec h) (by decide)

theorem numbers_sp : numbers [sp] = [] := by decide

/-- The numbers of a groups field are the groups. -/
theorem numbers_joinWith {gs : List ℕ} (h : gs ≠ []) : numbers (joinWith sp (gs.map dec)) = gs := by
  have hsp : ∀ w ∈ gs.map dec, sp ∉ w := by
    intro w hw
    obtain ⟨g, -, rfl⟩ := List.mem_map.mp hw
    exact sp_notMem_dec g
  have hne : ∀ w ∈ gs.map dec, decide (w ≠ []) = true := by
    intro w hw
    obtain ⟨g, -, rfl⟩ := List.mem_map.mp hw
    simpa using numeral_ne_nil 10 g
  have hval : ∀ g ∈ gs, (decVal ∘ dec) g = g := fun g _ => decVal_dec_self g
  rw [numbers, joinWith, List.splitOn_intercalate sp hsp (by simpa using h),
    List.filter_eq_self.mpr hne, List.map_map, List.map_congr_left hval, List.map_id']

/-- A field with one group has no space, one with more has. -/
theorem sp_mem_joinWith {gs : List ℕ} : sp ∈ joinWith sp (gs.map dec) ↔ 2 ≤ gs.length := by
  match gs with
  | [] => simp
  | [g] => simpa using sp_notMem_dec g
  | g :: g' :: gs => simp

/-- What is remembered of a groups field: a single group twice. -/
def remembered : List ℕ → List ℕ
  | [g] => [g, g]
  | gs => gs

theorem mem_remembered {gs : List ℕ} {g : ℕ} : g ∈ remembered gs ↔ g ∈ gs := by
  match gs with
  | [] => rfl
  | [g'] => simp [remembered]
  | _ :: _ :: _ => rfl

theorem remembered_ne_nil {gs : List ℕ} (h : gs ≠ []) : remembered gs ≠ [] := by
  match gs with
  | [] => exact absurd rfl h
  | [g] => simp [remembered]
  | _ :: _ :: _ => simp [remembered]

/-- The text assigned to `$)` for a list of groups. -/
theorem groupsText_joinWith {gs : List ℕ} (h : gs ≠ []) :
    groupsText (joinWith sp (gs.map dec)) = joinWith sp ((remembered gs).map dec) := by
  simp only [groupsText, sp_mem_joinWith]
  match gs with
  | [] => exact absurd rfl h
  | [g] => simp [remembered]
  | _ :: _ :: _ => simp [remembered]

/-- At uid 0, assigning at least two numbers replaces all groups. -/
theorem groupList_setGroups {s : Ids} (h0 : s.euid = 0) {gs : List ℕ} (h : 2 ≤ gs.length) :
    (s.setGroups (joinWith sp (gs.map dec))).groupList = gs := by
  match gs with
  | [] | [_] => simp at h
  | g :: g' :: gs =>
    rw [setGroups, if_pos h0, numbers_joinWith (by simp)]
    rfl

theorem two_le_length_remembered {gs : List ℕ} (h : gs ≠ []) : 2 ≤ (remembered gs).length := by
  match gs with
  | [] => exact absurd rfl h
  | [g] => simp [remembered]
  | _ :: _ :: _ => simp [remembered]

/-! ## One turn of the loop -/

theorem euid_setEuid_zero (s : Ids) : (s.setEuid 0).euid = 0 := by simp [setEuid]

@[simp] theorem groupList_setEuid (s : Ids) (n : ℕ) : (s.setEuid n).groupList = s.groupList := by
  unfold setEuid
  split <;> rfl

@[simp] theorem oldGroups_setEuid (s : Ids) (n : ℕ) : (s.setEuid n).oldGroups = s.oldGroups := by
  unfold setEuid
  split <;> rfl

@[simp] theorem euid_setGroups (s : Ids) (text : Bytes) : (s.setGroups text).euid = s.euid := by
  unfold setGroups
  split
  · split <;> rfl
  · rfl

/-- The assignment `$> = $uid if ($uid != $>)` is the assignment. -/
theorem setEuid_if_ne (s : Ids) (n : ℕ) :
    (if n ≠ s.euid then s.setEuid n else s) = s.setEuid n := by
  split
  · rfl
  · next h =>
    obtain rfl : n = s.euid := not_not.mp h
    simp [setEuid]

/-- When `$> = $uid` takes effect. -/
theorem euid_setEuid_iff (s : Ids) (n : ℕ) :
    (s.setEuid n).euid = n ↔ s.euid = 0 ∨ n = 0 ∨ n = s.euid := by
  unfold setEuid
  split
  · next h => exact ⟨fun _ => h, fun _ => rfl⟩
  · next h => exact ⟨fun heq => absurd (Or.inr (Or.inr heq.symm)) h, fun hc => absurd hc h⟩

theorem groupsField_eq (c : Cred) :
    c.groupsField = joinWith sp ((c.groups.map UInt32.toNat).map dec) := by
  rw [Cred.groupsField, List.map_map]
  rfl

/-- One turn is the assignment of the groups, if they are others, and of the uid. -/
theorem serve_eq (s : Ids) (l : UserLine) :
    s.serve l = (s.switchGroups l.cred.groupsField).setEuid l.cred.uid.toNat := by
  change s.switch (dec l.cred.uid.toNat) l.cred.groupsField = _
  rw [switch, decVal_dec_self, setEuid_if_ne]

/-- The same groups field as before: only the uid is assigned. -/
theorem serve_same {s : Ids} {l : UserLine} (h : l.cred.groupsField = s.oldGroups) :
    s.serve l = s.setEuid l.cred.uid.toNat := by
  rw [serve_eq, switchGroups, if_neg (not_not.mpr h)]

/-- Another groups field: the switch goes through uid 0. -/
theorem switchGroups_other {s : Ids} {groups : Bytes} (h : groups ≠ s.oldGroups) :
    s.switchGroups groups =
      { (s.setEuid 0).setGroups (groupsText groups) with oldGroups := groupsText groups } :=
  if_pos h

/-- Through uid 0, uid and groups are always assigned. -/
theorem serve_other {s : Ids} {l : UserLine} (h : l.cred.groupsField ≠ s.oldGroups)
    (hg : l.cred.groups ≠ []) :
    (s.serve l).euid = l.cred.uid.toNat ∧
      (s.serve l).groupList = remembered (l.cred.groups.map UInt32.toNat) ∧
      (s.serve l).oldGroups =
        joinWith sp ((remembered (l.cred.groups.map UInt32.toNat)).map dec) := by
  have hne : l.cred.groups.map UInt32.toNat ≠ [] := by simpa using hg
  rw [serve_eq, switchGroups_other h, groupsField_eq, groupsText_joinWith hne]
  refine ⟨?_, ?_, ?_⟩
  · rw [euid_setEuid_iff]
    exact Or.inl (by simp [euid_setEuid_zero])
  · rw [groupList_setEuid]
    exact groupList_setGroups (euid_setEuid_zero s) (two_le_length_remembered hne)
  · rw [oldGroups_setEuid]

/-- A user without groups: the groups of the process are never none. -/
theorem not_is_of_no_groups {s : Ids} {c : Cred} (h : c.groups = []) : ¬ s.Is c := by
  rintro ⟨-, hiff⟩
  have := (hiff s.egid).mp (List.mem_cons_self ..)
  rw [h] at this
  cases this

theorem remembers_setEuid {s : Ids} (h : s.Remembers) (n : ℕ) : (s.setEuid n).Remembers := by
  unfold Remembers
  rw [oldGroups_setEuid, groupList_setEuid]
  exact h

/-- No groups: a blank is remembered, which is no list of groups. -/
theorem oldGroups_serve_no_groups {s : Ids} {l : UserLine}
    (h : l.cred.groupsField ≠ s.oldGroups) (hg : l.cred.groups = []) :
    (s.serve l).oldGroups = [sp] := by
  rw [serve_eq, switchGroups_other h, oldGroups_setEuid]
  simp [Cred.groupsField, hg, groupsText]

/-- What one turn keeps: the remembered text is that of the groups. -/
theorem Remembers.serve {s : Ids} (h : s.Remembers) (l : UserLine) : (s.serve l).Remembers := by
  by_cases hsame : l.cred.groupsField = s.oldGroups
  · rw [serve_same hsame]
    exact remembers_setEuid h _
  · by_cases hg : l.cred.groups = []
    · intro hne
      rw [oldGroups_serve_no_groups hsame hg] at hne
      exact absurd numbers_sp hne
    · obtain ⟨-, hlist, hold⟩ := serve_other hsame hg
      intro _
      rw [hlist, hold, numbers_joinWith (remembered_ne_nil (by simpa using hg))]

/-- **One turn**: the body runs with the ids of its own user exactly when the switch goes through
uid 0 or does not have to. -/
theorem runsAs_iff_switchable {s : Ids} (h : s.Remembers) (l : UserLine) :
    s.RunsAs l ↔ s.Switchable l := by
  by_cases hg : l.cred.groups = []
  · exact ⟨fun hr => absurd hr (not_is_of_no_groups hg), fun hs => absurd hg hs.1⟩
  have hne : l.cred.groups.map UInt32.toNat ≠ [] := by simpa using hg
  by_cases hsame : l.cred.groupsField = s.oldGroups
  · have hnum : numbers s.oldGroups = l.cred.groups.map UInt32.toNat := by
      rw [← hsame, groupsField_eq, numbers_joinWith hne]
    have hlist : s.groupList = l.cred.groups.map UInt32.toNat := by
      rw [h (by rwa [hnum]), hnum]
    have hzero : l.cred.uid.toNat = 0 ↔ l.cred.uid = 0 := by
      rw [← UInt32.toNat_inj]
      rfl
    unfold RunsAs Is Switchable
    rw [serve_same hsame, groupList_setEuid, hlist, euid_setEuid_iff, hzero]
    exact ⟨fun hr => ⟨hg, Or.inr hr.1⟩, fun hs => ⟨hs.2.resolve_left (not_not.mpr hsame),
      fun _ => Iff.rfl⟩⟩
  · obtain ⟨huid, hlist, -⟩ := serve_other hsame hg
    refine ⟨fun _ => ⟨hg, Or.inl hsame⟩, fun _ => ⟨huid, fun g => ?_⟩⟩
    rw [hlist, mem_remembered]

/-! ## Runs -/

/-- The server process at its start: uid 0, with whatever groups it was started with. -/
def start (egid : ℕ) (groups : List ℕ) : Ids := ⟨0, egid, groups, []⟩

theorem remembers_start (egid : ℕ) (groups : List ℕ) : (start egid groups).Remembers :=
  fun h => absurd rfl h

/-- **Credential separation**: in a run of command lines of arbitrary users, every body runs with
the ids of its own user exactly when every line is `Switchable` where it is read. -/
theorem separation_iff (egid : ℕ) (groups : List ℕ) (lines : List UserLine) :
    Along serve RunsAs (start egid groups) lines ↔
      Along serve Switchable (start egid groups) lines :=
  along_congr (fun _ l h => h.serve l) (fun _ l h => runsAs_iff_switchable h l)
    (remembers_start egid groups)

/-- Two users with the same two groups: the second one's command runs as the first. -/
theorem not_separation_same_groups :
    ¬ Along serve RunsAs (start 0 [])
      [⟨ascii "s_rm", ⟨1000, [5, 6]⟩, [ascii "/a"]⟩,
        ⟨ascii "s_rm", ⟨1001, [5, 6]⟩, [ascii "/a"]⟩] := by
  rintro ⟨-, h, -⟩
  revert h
  unfold RunsAs
  decide

end Ids

end Shfs
