import Shfs.Alike
import Shfs.Callers

/-!
# A file behind the cache and the connection

The two halves of the client put together: the file cache sends `shell_read` and `shell_write` over
the connection (`Fops.OnConn`), and the Perl server makes its system calls on a file that can be
read and written and that nobody else changes (`OS.Steady`). Then a caller sees a plain file: every
call returns what a file on his own machine would, and after a sync the remote file is that file
(`remote_transparent`).

The commands are those of the cache: `shell_read` and `shell_write` send the lines printed from the
words that the mount has for them (`shellRead_sends`, `shellWrite_sends`).

The way there is `Ask.call_gives` for each command and `CacheOp.call_alike` for the cache, which
needs only that its far side answers like one that is nothing but the contents of a file
(`plainOps`). What is left are the conditions of the parts: a path without a quote that fits when it
is quoted, offsets of 32 bits, and reads that refill the buffer at the right place.
-/

namespace Shfs

open Lib

/-! ## The lines of the cache -/

section Sends

variable {β : Type} (preserveOwn : Bool) (cred : Cred)

/-- **What `shell_read` sends**: the line printed from the words that the model of the mount has for
a read. So the commands that are counted and compared there, with no connection in sight, are the
ones that go over it. -/
theorem shellRead_sends (file : Bytes) (offset count : UInt32) (ino : UInt64) (info : Info)
    (k : Cont (ℕ × Bytes) β) :
    shellRead preserveOwn cred file offset count ino info k =
      sendLine ((shellReadCmd file offset count ino).bind fun c =>
          (printLine preserveOwn cred c.cmd (c.args ++ [nl])).line) info
        (fun e info => k (.error e) info) fun _ info => readReply count.toNat ino info k := by
  have hline := congrArg (Option.bind · Built.line)
    (shellReadLine_eq preserveOwn cred file offset count ino)
  simp only [Option.bind_map, Function.comp_def] at hline
  rw [shellRead, hline]

/-- **What `shell_write` sends** in front of its octets, in the same way. -/
theorem shellWrite_sends (fcacheSize : UInt32) (file : Bytes) (offset count : UInt32) (data : Bytes)
    (ino : UInt64) (info : Info) (k : Cont ℕ β) :
    shellWrite preserveOwn cred fcacheSize file offset count data ino info k =
      sendLine ((shellWriteCmd fcacheSize file offset count ino).bind fun c =>
          (printLine preserveOwn cred c.cmd (c.args ++ [nl])).line) info
        (fun e info => k (.error e) info) fun _ info => writeReply count.toNat data info k := by
  have hline := congrArg (Option.bind · Built.line)
    (shellWriteLine_eq preserveOwn cred fcacheSize file offset count ino)
  simp only [Option.bind_map, Function.comp_def] at hline
  rw [shellWrite, hline]

end Sends

section RemoteFile

variable {σ : Type}

/-! ## Commands over the connection -/

/-- A call of the client on the connection: its result, and the connection behind it, if it comes
back. -/
def Conn.comes (os : OS σ) (home : Bytes) (t : Info → Talk Fault (Outcome × Info)) (c : Conn σ) :
    Option (Outcome × Conn σ) :=
  match (t c.info).run (perlServer os home) READLNBUF_SIZE
    (c.wire.feed (perlServer os home) c.pipe) with
  | .inl ((r, info), w) => some (r, ⟨info, [], w⟩)
  | .inr _ => none

/-- `info->fops` are the functions of shell.c: where `shell_read` or `shell_write` comes back, its
result and the connection behind it are theirs, and the path buffer has been quoted. -/
structure Fops.OnConn (os : OS σ) (home : Bytes) (m : Mount) (cred : Cred) (ops : Fops (Conn σ)) :
    Prop where
  read : ∀ {name off n ino c r c'},
    c.comes os home
      (fun info => shellRead m.preserveOwn cred name (.ofNat off) (.ofNat n) (.ofNat ino)
      info (ending .data)) = some (.data r, c') →
    ops.read name off n ino c = ⟨r.map Prod.snd, (checkPath name).getD name, c'⟩
  write : ∀ {name off d ino c r c'},
    c.comes os home (fun info => shellWrite m.preserveOwn cred m.fcacheSize name (.ofNat off)
      (.ofNat d.length) d (.ofNat ino) info (ending .code)) = some (.code r, c') →
    ops.write name off d ino c = ⟨r, (checkPath name).getD name, c'⟩

/-- A file that can be read and written with any ids, and that only changes when it is written. -/
structure OS.Steady (os : OS σ) (file : Bytes) (octets : σ → Bytes) : Prop where
  readable : ∀ ids s, os.open' ids s .rdonly file = true
  writable : ∀ ids s, os.open' ids s .wronly file = true
  read : ∀ ids s off n, os.readFile ids s file off n = some (((octets s).drop off).take n)
  written : ∀ ids s off d, (os.writeFile ids s file off d).1 = true
  write : ∀ ids s off d, octets (os.writeFile ids s file off d).2 = store (octets s) off d

variable {os : OS σ} {home : Bytes} {m : Mount} {cred : Cred} {p : Path} {octets : σ → Bytes}

/-- The connection is quiet, and these are the octets of the file on the server. -/
def Conn.Shows (os : OS σ) (home : Bytes) (m : Mount) (octets : σ → Bytes) (root file : Bytes)
    (c : Conn σ) : Prop :=
  ∃ s, Quiet os home m c s ∧ s.root = root ∧ octets s.fs = file

/-- The octets of the file, when the server has taken what is on its way. -/
def Conn.contents (os : OS σ) (home : Bytes) (octets : σ → Bytes) (c : Conn σ) : Bytes :=
  match (c.wire.feed (perlServer os home) c.pipe).mode with
  | .line s _ => octets s.fs
  | .raw .. => []

theorem Conn.Shows.contents_eq {root file : Bytes} {c : Conn σ}
    (h : c.Shows os home m octets root file) :
    c.contents os home octets = file := by
  obtain ⟨s, hquiet, -, hfile⟩ := h
  rw [Conn.contents, hquiet.idle.mode]
  exact hfile

/-- A call that is admitted comes back with its effect. -/
theorem Quiet.comes {c : Conn σ} {s : Perl σ} (h : Quiet os home m c s) (cred : Cred) {a : Ask}
    (hadm : a.line m cred ≠ none → a.Fits m cred ∧ a.Orderly os (a.switched m cred s)) :
    ∃ c', c.comes os home (fun info => a.call m cred info) = some ((a.effect os m cred s).1, c') ∧
      Quiet os home m c' (a.effect os m cred s).2 := by
  obtain ⟨w, hrun, hmode, hinbox, hanswered⟩ := Ask.call_gives h.info h.preserve hadm h.idle
  refine ⟨⟨c.info, [], w⟩, ?_, h.info, ⟨hmode, hinbox, hanswered⟩,
    (a.effect_preserve os m cred s).trans h.preserve⟩
  rw [Conn.comes, hrun]

theorem switched_same (m : Mount) (cred : Cred) (s : Perl σ) (a : Ask) :
    (a.switched m cred s).fs = s.fs ∧ (a.switched m cred s).root = s.root := by
  unfold Ask.switched
  split <;> exact ⟨rfl, rfl⟩

/-- A call that sends its line is made on the server. -/
theorem effect_sent {s : Perl σ} {a : Ask} (h : a.line m cred ≠ none) :
    a.effect os m cred s = ((a.onServer os (a.switched m cred s)).1,
      { a.switched m cred s with fs := (a.onServer os (a.switched m cred s)).2 }) := if_neg h

/-- A line without a length check that has its path is sent. -/
theorem printed_ne_none (hcred : m.Sends cred) (r : Request) :
    (printLine m.preserveOwn cred r.name (r.argText ++ [nl])).line ≠ none := by
  have hname := r.name_ok.2
  have hwidth := hcred.width
  have hS := SOCKBUF_SIZE_eq
  rcases r.printLine_cases m.preserveOwn cred
    with ⟨hlong, -⟩ | ⟨-, heq⟩ | ⟨-, -, cut, tail, -, -, heq⟩
  · omega
  · rw [heq]
    exact Option.some_ne_none _
  · rw [heq]
    exact Option.some_ne_none _

section Commands

variable {ops : Fops (Conn σ)} {root file : Bytes} {c : Conn σ} {off n : ℕ}

/-- A path without a quote is left as it is. -/
theorem Path.Fits.getD_checkPath (hp : p.Fits) (hquote : apos ∉ p.text) :
    (Shfs.checkPath p.text).getD p.text = p.text := by
  rw [hp.checkPath, quoteText_eq_self hquote, Option.getD_some]

theorem toNat_ofNat_lt (h : n < 2 ^ 32) : (UInt32.ofNat n).toNat = n := by
  rw [UInt32.toNat_ofNat']
  exact Nat.mod_eq_of_lt h

/-- What is not there is filled up with zeros. -/
theorem fetch_eq_padded (f : Bytes) (off n : ℕ) :
    fetch f off n =
      (f.drop off).take n ++ List.replicate (n - ((f.drop off).take n).length) 0 := by
  rw [fetch, List.length_take, List.length_drop]
  congr 2
  omega

/-- **`shell_read`** of a steady file brings the octets of the file, on a connection that the server
may not yet have caught up with, and leaves the connection like that. -/
theorem Fops.OnConn.read_shows (hops : ops.OnConn os home m cred) (hcred : m.Sends cred)
    (hp : p.Fits) (hquote : apos ∉ p.text) (hfile : os.Steady (root ++ p.text) octets)
    (hc : c.Shows os home m octets root file) (hoff : off < 2 ^ 32) (hn : n < 2 ^ 32) :
    ∃ c', ops.read p.text off n 0 c = ⟨.ok (fetch file off n), p.text, c'⟩ ∧
      c'.Shows os home m octets root file := by
  obtain ⟨s, hquiet, rfl, rfl⟩ := hc
  set a : Ask := .read p (.ofNat off) (.ofNat n) 0 with ha
  obtain ⟨hfs, hroot⟩ := switched_same m cred s a
  have hpath : (a.switched m cred s).path p.text = s.root ++ p.text := by rw [Perl.path, hroot]
  have hline : a.line m cred ≠ none := by
    change ((Request.read p (.ofNat off) (.ofNat n) 0).built m.preserveOwn cred).line ≠ none
    rw [Request.built_read hp]
    exact printed_ne_none hcred _
  have horderly : a.Orderly os (a.switched m cred s) := by
    refine ⟨rfl, ?_⟩
    rw [hpath, if_pos (hfile.readable _ _), hfile.read]
    exact Option.some_ne_none _
  have hserver : a.onServer os (a.switched m cred s) =
      (.data (.ok (n, fetch (octets s.fs) off n)), s.fs) := by
    rw [ha, Ask.onServer, ← ha]
    simp only [hpath, hfile.readable, if_true, hfile.read, hfs, toNat_ofNat_lt hoff,
      toNat_ofNat_lt hn, fetch_eq_padded]
  obtain ⟨c', hcomes, hquiet'⟩ :=
    hquiet.comes cred (a := a) fun hl => ⟨Ask.fits_of_line hcred hl, horderly⟩
  rw [effect_sent hline, hserver] at hcomes hquiet'
  refine ⟨c', ?_, _, hquiet', hroot, rfl⟩
  rw [hops.read hcomes, hp.getD_checkPath hquote]
  rfl

/-- **`shell_write`** to a steady file succeeds, and what the server has when it has caught up is
the file with the octets in their place. -/
theorem Fops.OnConn.write_shows (hops : ops.OnConn os home m cred) (hcred : m.Sends cred)
    (hp : p.Fits) (hquote : apos ∉ p.text) (hfile : os.Steady (root ++ p.text) octets)
    (hc : c.Shows os home m octets root file) (hoff : off < 2 ^ 32) {d : Bytes}
    (hd : d.length < 2 ^ 32) (ino : ℕ) :
    ∃ c', ops.write p.text off d ino c = ⟨.ok d.length, p.text, c'⟩ ∧
      c'.Shows os home m octets root (store file off d) := by
  obtain ⟨s, hquiet, rfl, rfl⟩ := hc
  set a : Ask := .write p (.ofNat off) d hd (.ofNat ino) with ha
  obtain ⟨hfs, hroot⟩ := switched_same m cred s a
  have hpath : (a.switched m cred s).path p.text = s.root ++ p.text := by rw [Perl.path, hroot]
  have hline : a.line m cred ≠ none := by
    change ((Request.write m.fcacheSize p (.ofNat off) (.ofNat d.length) (.ofNat ino)).built
      m.preserveOwn cred).line ≠ none
    rw [Request.built_write _ hp]
    exact printed_ne_none hcred _
  obtain ⟨c', hcomes, hquiet'⟩ :=
    hquiet.comes cred (a := a) fun hl => ⟨Ask.fits_of_line hcred hl, trivial⟩
  have hserver : (a.onServer os (a.switched m cred s)).1 = .code (.ok d.length) ∧
      octets (a.onServer os (a.switched m cred s)).2 = store (octets s.fs) off d := by
    rw [ha, Ask.onServer, ← ha]
    simp only [hpath, hfile.writable, if_true, hfile.written, hfile.write, hfs, toNat_ofNat_lt hoff]
    exact ⟨trivial, trivial⟩
  rw [effect_sent hline] at hcomes hquiet'
  rw [hserver.1] at hcomes
  refine ⟨c', ?_, _, hquiet', hroot, hserver.2⟩
  rw [hops.write hcomes, hp.getD_checkPath hquote]

/-- **The far side of the cache** answers like the contents of a file, as long as offset and count
are below 2^31. So what is proved of the cache on a plain file holds of a mount. -/
theorem Fops.OnConn.alike (hops : ops.OnConn os home m cred) (hcred : m.Sends cred) (hp : p.Fits)
    (hquote : apos ∉ p.text) (hfile : os.Steady (root ++ p.text) octets) :
    CacheOp.plainOps.Alike (fun file c => c.Shows os home m octets root file) p.text
      (2 ^ 31) ops where
  read off n file c hle hc := by
    obtain ⟨c', hread, hc'⟩ :=
      hops.read_shows hcred hp hquote hfile hc (show off < 2 ^ 32 by omega)
        (show n < 2 ^ 32 by omega)
    rw [hread]
    exact ⟨rfl, ⟨rfl, rfl⟩, hc'⟩
  exact off n file d h := by
    obtain rfl := Except.ok.inj h
    exact length_fetch ..
  write off d ino file c hle hc := by
    obtain ⟨c', hwrite, hc'⟩ :=
      hops.write_shows hcred hp hquote hfile hc (show off < 2 ^ 32 by omega)
        (show d.length < 2 ^ 32 by omega) ino
    rw [hwrite]
    exact ⟨rfl, ⟨rfl, rfl⟩, hc'⟩

/-! ## The file -/

/-- **A remote file is a file.** In every run of calls on it, whose reads refill the buffer at the
right place, every call returns what it would on a plain file, and after a sync or a close the
octets on the server are those of the plain file. -/
theorem remote_transparent (hops : ops.OnConn os home m cred) (hcred : m.Sends cred) (hp : p.Fits)
    (hquote : apos ∉ p.text) (hsize : PAGE_SIZE ∣ m.fcacheSize.toNat)
    (hpos : 0 < m.fcacheSize.toNat) {s : Perl σ} (hc : Quiet os home m c s)
    (hfile : os.Steady (s.path p.text) octets) (free : ℤ) {fuel : ℕ} {run : List CacheOp}
    (hfuel : ∀ op ∈ run, op.rounds ≤ fuel)
    (hon : ∀ op ∈ run, op.On p.text m.fcacheSize.toNat (2 ^ 31))
    (hrefills : Along (CacheOp.next ops m.fcacheSize.toNat fuel)
      (fun x op => op.Refills m.fcacheSize.toNat x.1) (⟨none, free, c⟩, octets s.fs) run) :
    Along (CacheOp.next ops m.fcacheSize.toNat fuel)
      (CacheOp.Transparent ops m.fcacheSize.toNat fuel (Conn.contents os home octets))
      (⟨none, free, c⟩, octets s.fs) run := by
  have halike := hops.alike hcred hp hquote hfile
  refine Along.of_guarded (fun x => ∃ t : Slot Bytes,
      t.Alike (fun file c => c.Shows os home m octets s.root file) (2 ^ 31) x.1 ∧
        t.Mirrors id m.fcacheSize.toNat x.2) (fun x op hx hq => ?_) ?_
    ((hrefills.and_mem hfuel).and_mem hon)
  · obtain ⟨slot, file⟩ := x
    obtain ⟨t, ht, hmirrors⟩ := hx
    obtain ⟨⟨hrefill, hrounds⟩, hon⟩ := hq
    have hrefill' : op.Refills m.fcacheSize.toNat t := by
      cases op with
      | read f mem offset count =>
        intro b hb
        exact hrefill b ((ht.alloc (by decide) mem).cache ▸ hb)
      | _ => trivial
    obtain ⟨answer, t', hcall, hright, hmirrors'⟩ :=
      CacheOp.call_mirrors CacheOp.plainOps_plain hsize hpos hmirrors hrounds hon.below.unwrapped
        hrefill'
    obtain ⟨slot', hcall', ht'⟩ := CacheOp.call_alike halike hsize hpos (by decide) ht hon hcall
    refine ⟨⟨answer, slot', hcall', ?_⟩, ?_⟩
    · cases op with
      | sync f | close f => exact ht'.remote.contents_eq.trans hright
      | _ => exact hright
    · simp only [CacheOp.next, hcall', Option.map_some, Option.getD_some]
      exact ⟨t', ht', hmirrors'⟩
  · exact ⟨⟨none, free, octets s.fs⟩, ⟨rfl, rfl, ⟨s, hc, rfl, rfl⟩, fun c hc => by cases hc⟩, rfl⟩

end Commands

end RemoteFile

/-! ### An example -/

/-- `info->fops` of a mount; a call that does not come back ends with a signal. -/
def connFops {σ : Type} (os : OS σ) (home : Bytes) (m : Mount) (cred : Cred) : Fops (Conn σ) where
  read name off n ino c :=
    match c.comes os home fun info =>
      shellRead m.preserveOwn cred name (.ofNat off) (.ofNat n) (.ofNat ino)
      info (ending .data) with
    | some (.data r, c') => ⟨r.map Prod.snd, (checkPath name).getD name, c'⟩
    | _ => ⟨.error .eintr, name, c⟩
  write name off d ino c :=
    match c.comes os home fun info => shellWrite m.preserveOwn cred m.fcacheSize name (.ofNat off)
      (.ofNat d.length) d (.ofNat ino) info (ending .code) with
    | some (.code r, c') => ⟨r, (checkPath name).getD name, c'⟩
    | _ => ⟨.error .eintr, name, c⟩

theorem onConn_connFops {σ : Type} (os : OS σ) (home : Bytes) (m : Mount) (cred : Cred) :
    (connFops os home m cred).OnConn os home m cred where
  read h := by simp only [connFops, h]
  write h := by simp only [connFops, h]

/-- A machine that is one file for everybody. -/
def sharedFile : OS Bytes where
  isDir _ _ _ := false
  exists' _ _ _ := true
  nonEmpty _ s _ := s ≠ []
  ls _ _ _ _ _ := ([], false)
  open' _ _ _ _ := true
  firstByte _ s mode _ := mode ≠ .wronly ∧ s ≠ []
  readFile _ s _ off n := some ((s.drop off).take n)
  writeFile _ s _ off d := (true, store s off d)
  mkdir _ s _ := (false, s)
  rmdir _ s _ := (false, s)
  rename _ s _ _ := (false, s)
  unlink _ s _ := (false, s)
  creat _ s _ _ := (false, s)
  link _ s _ _ := (false, s)
  symlink _ s _ _ := (false, s)
  readlink _ _ _ := none
  chmod _ s _ _ := (false, s)
  chown _ s _ _ := (false, s)
  chgrp _ s _ _ := (false, s)
  truncate _ s _ _ := (false, s)
  utime _ s _ _ _ := (false, s)
  df _ _ _ := none
  readFile_le := by
    rintro ids s path off n data ⟨⟩
    exact List.length_take_le _ _
  df_line := by simp

/-- A new connection to it. -/
def sharedConn : Conn Bytes := .new ⟨⟨0, 0, [], []⟩, [66, 67], [], false, false⟩

/-- Its commands, on a mount with a buffer of one page. -/
def sharedOps : Fops (Conn Bytes) := connFops sharedFile [] ⟨false, 4096⟩ ⟨0, []⟩

/-- A read, a write and a close. -/
def sharedRun : List CacheOp :=
  [.read CacheOp.openA CacheOp.plenty 0 1, .write CacheOp.openA CacheOp.plenty 0 [65],
    .close CacheOp.openA]

/-- The file `/a` is read and written. -/
theorem remote_transparent_shared :
    Along (CacheOp.next sharedOps 4096 1)
      (CacheOp.Transparent sharedOps 4096 1 (Conn.contents sharedFile [] id))
      (⟨none, 1, sharedConn⟩, [66, 67]) sharedRun := by
  have hon : ∀ op ∈ sharedRun, op.On (ascii "/a") 4096 (2 ^ 31) :=
    List.forall_mem_cons.mpr ⟨⟨rfl, by decide⟩, List.forall_mem_cons.mpr ⟨⟨rfl, by decide⟩,
      List.forall_mem_singleton.mpr rfl⟩⟩
  exact remote_transparent (m := ⟨false, 4096⟩) (p := ⟨ascii "/a", by decide, by decide⟩)
    (onConn_connFops sharedFile [] _ _) (Mount.sends_plain rfl _) (by unfold Path.Fits; decide)
    (by decide) ⟨1, rfl⟩ (by decide) (quiet_new rfl)
    ⟨fun _ _ => rfl, fun _ _ => rfl, fun _ _ _ _ => rfl, fun _ _ _ _ => rfl, fun _ _ _ _ => rfl⟩ 1
    (by decide) hon ⟨by decide, trivial, trivial, trivial⟩

end Shfs
