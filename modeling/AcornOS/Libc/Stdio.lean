/-
# Buffered files (`libc/src/stdio.c`)

`fopen`, `fwrite`, `fread` and `fclose` over the system calls of `syscall.c` and the file system below.

* A stream that writes has a buffer of bytes that the file is still to get: `Writer` says what has been
  written IN ALL.  Only a full buffer is handed over, and what is left when the stream is closed.
* A stream that reads has a buffer of bytes it has got and not yet passed on: `Reader` says what is STILL
  TO COME.
* **`stdio_round_trip`**: what is written, in whatever pieces, is what is read, in whatever pieces.
-/
import AcornOS.FileSystem.Cursors
import AcornOS.FileSystem.Namespace

namespace AcornOS

open Lib Relation

/-! ## 1. System calls -/

/-- `sys_write` -/
def sysWrite (fs : FileSystem) (fd : Int) (buf : List (BitVec 8)) : Except Fault (Int × FileSystem) :=
  let count := buf.length % 2 ^ 32
  if count > 4096 then .ok (-1, fs) else vfsWrite fs fd (buf.take count)

/-- `sys_read`: what it returns, and what it has put into the buffer. -/
def sysRead (fs : FileSystem) (fd : Int) (size : Nat) :
    Except Fault (Int × List (BitVec 8) × FileSystem) :=
  let count := size % 2 ^ 32
  if count > 4096 then .ok (-1, [], fs) else vfsRead fs fd count

/-! ## 2. Streams -/

/-- `FILE_BUF_SIZE` -/
def fileBufSize : Nat := 512

/-- `struct FILE`, with the memory of its buffer. -/
structure FILE where
  fd : Int
  isWrite : Bool
  buf : List (BitVec 8)
  bufSize : Nat
  bufPos : Nat
  bufLen : Nat
deriving Repr, DecidableEq

/-- What the first character of the mode stands for: the flags, and whether it is a mode to write in. -/
def modeFlags (mode : CString) : Option (BitVec 32 × Bool) :=
  if mode.head? = some 0x72 then some (oRdonly, false)
  else if mode.head? = some 0x77 then some (oWronly ||| oCreat ||| oTrunc, true)
  else if mode.head? = some 0x61 then some (oWronly ||| oCreat ||| oAppend, true)
  else none

/-- `fopen`, when `file` says whether there is memory for the `FILE`, and `buf` is what `malloc` returns
for its buffer.  A new inode comes to lie at `a`. -/
def fopen (fs : FileSystem) (a : Nat) (path mode : CString) (file : Bool)
    (buf : Option (List (BitVec 8))) : Except Fault (Option FILE × FileSystem) :=
  match modeFlags mode with
  | none => .ok (none, fs)
  | some (flags, isWrite) => do
    let (fd, fs) ← vfsOpen fs a path flags
    if fd < 0 then .ok (none, fs)
    else
      match file, buf with
      | true, some buf => .ok (some ⟨fd, isWrite, buf, fileBufSize, 0, 0⟩, fs)
      | _, _ => (vfsClose fs fd).map fun (_, fs) => (none, fs)

/-- What is left in the buffer is written out. -/
def fcloseFlush (fs : FileSystem) (f : FILE) : Except Fault (Int × FileSystem) :=
  if f.isWrite ∧ f.bufPos > 0 then sysWrite fs f.fd (f.buf.take f.bufPos) else .ok (0, fs)

/-- `fclose`.  The stream is gone, whatever it returns. -/
def fclose (fs : FileSystem) (f : FILE) : Except Fault (Int × FileSystem) := do
  let (flushed, fs) ← fcloseFlush fs f
  let (closed, fs) ← vfsClose fs f.fd
  .ok (if flushed < 0 ∨ closed < 0 then -1 else 0, fs)

/-- A full buffer is written out.  A negative result leaves it as it is. -/
def fwriteFlush (fs : FileSystem) (f : FILE) : Except Fault (Int × FILE × FileSystem) :=
  if f.bufPos ≥ f.bufSize then do
    let (n, fs) ← sysWrite fs f.fd (f.buf.take f.bufPos)
    .ok (n, if n < 0 then f else { f with bufPos := 0 }, fs)
  else .ok (0, f, fs)

/-- The loop of `fwrite` over what is left of `src`. -/
def fwriteLoop : Nat → FileSystem → FILE → List (BitVec 8) → Nat →
    Except Fault (Nat × FILE × FileSystem)
  | 0, fs, f, _, written => .ok (written, f, fs)
  | fuel + 1, fs, f, src, written =>
    if src = [] then .ok (written, f, fs)
    else do
      let (n, f, fs) ← fwriteFlush fs f
      if n < 0 then .ok (written, f, fs)
      else
        let space := f.bufSize - f.bufPos
        let chunk := min space src.length
        let f := { f with
          buf := overwrite f.buf f.bufPos (src.take chunk)
          bufPos := f.bufPos + chunk }
        fwriteLoop fuel fs f (src.drop chunk) (written + chunk)

/-- `fwrite` of the bytes that begin at `ptr`. -/
def fwrite (fs : FileSystem) (ptr : List (BitVec 8)) (size nmemb : Nat) (f : FILE) :
    Except Fault (Nat × FILE × FileSystem) :=
  if ¬ f.isWrite ∨ size = 0 ∨ nmemb = 0 then .ok (0, f, fs)
  else do
    let total := size * nmemb % 2 ^ 64
    let (written, f, fs) ← fwriteLoop total fs f (ptr.take total) 0
    .ok (written / size, f, fs)

/-- An empty buffer is filled. -/
def freadRefill (fs : FileSystem) (f : FILE) : Except Fault (Int × FILE × FileSystem) :=
  if f.bufPos ≥ f.bufLen then do
    let (n, bytes, fs) ← sysRead fs f.fd f.bufSize
    .ok (n, if n ≤ 0 then f else
      { f with buf := overwrite f.buf 0 bytes, bufLen := n.toNat, bufPos := 0 }, fs)
  else .ok (1, f, fs)

/-- The loop of `fread`, with what it has copied to `dst` so far. -/
def freadLoop : Nat → FileSystem → FILE → (remaining : Nat) → (dst : List (BitVec 8)) →
    Except Fault (List (BitVec 8) × FILE × FileSystem)
  | 0, fs, f, _, dst => .ok (dst, f, fs)
  | fuel + 1, fs, f, remaining, dst =>
    if remaining = 0 then .ok (dst, f, fs)
    else do
      let (n, f, fs) ← freadRefill fs f
      if n ≤ 0 then .ok (dst, f, fs)
      else
        let available := f.bufLen - f.bufPos
        let chunk := min available remaining
        let dst := dst ++ (f.buf.drop f.bufPos).take chunk
        freadLoop fuel fs { f with bufPos := f.bufPos + chunk } (remaining - chunk) dst

/-- `fread`: what it returns, and what it has put into the caller's memory. -/
def fread (fs : FileSystem) (size nmemb : Nat) (f : FILE) :
    Except Fault (Nat × List (BitVec 8) × FILE × FileSystem) :=
  if f.isWrite ∨ size = 0 ∨ nmemb = 0 then .ok (0, [], f, fs)
  else do
    let total := size * nmemb % 2 ^ 64
    let (dst, f, fs) ← freadLoop total fs f total []
    .ok (dst.length / size, dst, f, fs)

/-! ## 3. Programs -/

/-- The arguments of a call of `fwrite`. -/
structure FwriteArgs where
  size : Nat
  nmemb : Nat
  data : List (BitVec 8)
deriving Repr, DecidableEq

/-- The data is `nmemb` items of the given size, and the product does not overflow. -/
def FwriteArgs.Fits (w : FwriteArgs) : Prop := w.data.length = w.size * w.nmemb ∧ w.data.length < 2 ^ 64

/-- All that is written. -/
def dataOf (ws : List FwriteArgs) : List (BitVec 8) := (ws.map FwriteArgs.data).flatten

/-- Calls of `fwrite`, one after another. -/
def fwriteAll : List FwriteArgs → FileSystem → FILE → Except Fault (FILE × FileSystem)
  | [], fs, f => .ok (f, fs)
  | w :: ws, fs, f => do
    let (_, f, fs) ← fwrite fs w.data w.size w.nmemb f
    fwriteAll ws fs f

/-- A program that opens a file, writes to it and closes it. -/
def writeFile (fs : FileSystem) (a : Nat) (path mode : CString) (buf : List (BitVec 8))
    (ws : List FwriteArgs) : Except Fault (Option Int × FileSystem) := do
  let (f, fs) ← fopen fs a path mode true (some buf)
  match f with
  | none => .ok (none, fs)
  | some f => do
    let (f, fs) ← fwriteAll ws fs f
    (fclose fs f).map fun (r, fs) => (some r, fs)

/-- Calls of `fread` with items of one byte, until one returns 0: what they read, and whether one did. -/
def freadUntil : List Nat → FileSystem → FILE → Except Fault (List (BitVec 8) × Bool × FILE × FileSystem)
  | [], fs, f => .ok ([], false, f, fs)
  | r :: rs, fs, f => do
    let (n, bytes, f, fs) ← fread fs 1 r f
    if n = 0 then .ok ([], true, f, fs)
    else (freadUntil rs fs f).map fun (rest, ended, f, fs) => (bytes ++ rest, ended, f, fs)

/-- A program that opens a file, reads it in requests of the given sizes and closes it. -/
def readFile (fs : FileSystem) (a : Nat) (path mode : CString) (buf : List (BitVec 8)) (rs : List Nat) :
    Except Fault (Option (List (BitVec 8) × Bool) × FileSystem) := do
  let (f, fs) ← fopen fs a path mode true (some buf)
  match f with
  | none => .ok (none, fs)
  | some f => do
    let (bytes, ended, f, fs) ← freadUntil rs fs f
    (fclose fs f).map fun (_, fs) => (some (bytes, ended), fs)

/-! ## 4. Writing -/

/-- The path leads to the file at `a`, and so does `fd`. -/
structure Opened (fs : FileSystem) (path : CString) (a : Nat) (fd : Int) (g : File) : Prop where
  ok : fs.Ok
  file : fs.IsFile a
  name : vfsResolvePath fs path = .ok (some a)
  opened : fs.Open fd g
  inode : g.inode = a
  low : 3 ≤ fd

/-- The stream writes to the file at `a`, which has been given `x` in all, if the quota is not reached:
what is in the file, and what is in the buffer. -/
structure Writer (fs : FileSystem) (f : FILE) (path : CString) (a : Nat) (x : List (BitVec 8)) : Prop where
  opened : ∃ g, Opened fs path a f.fd g ∧ g.flags ≠ oRdonly ∧ g.position < 2 ^ 32
  isWrite : f.isWrite = true
  size : f.bufSize = fileBufSize
  buf : f.buf.length = fileBufSize
  pos : f.bufPos ≤ fileBufSize
  written : fs.HasRoom a → bytesOf (fs.blocksOf a) ++ f.buf.take f.bufPos = x

section Write

variable {fs fs' : FileSystem} {f : FILE} {path : CString} {a : Nat} {fd : Int} {g g' : File}
  {x s : List (BitVec 8)}

theorem Opened.mutation (h : Opened fs path a fd g) (hmut : ReflTransGen Mutation fs fs')
    (hopen : fs'.Open fd g') (hinode : g'.inode = a) : Opened fs' path a fd g' :=
  ⟨Mutation.ok_run hmut h.ok, Mutation.isFile_run hmut h.file,
    (Mutation.extends_run hmut).vfsResolvePath h.name, hopen, hinode, h.low⟩

theorem open_setFile (hopen : fs.Open fd g) : (fs'.setFile fd.toNat (some g')).Open fd g' := by
  obtain ⟨hfd, hmax⟩ := hopen.range
  rw [FileSystem.Open, vfsGetFile_setFile hfd hmax, if_pos rfl]

/-- The buffer is written out. -/
theorem Writer.flush (h : Writer fs f path a x) : ∃ n fs', sysWrite fs f.fd (f.buf.take f.bufPos) =
    .ok (n, fs') ∧ 0 ≤ n ∧ Writer fs' { f with bufPos := 0 } path a x := by
  obtain ⟨⟨g, hg, hmode, hpos⟩, hisWrite, hsize, hbuf, hle, hwritten⟩ := h
  have hlen : (f.buf.take f.bufPos).length = f.bufPos := by
    rw [List.length_take]
    omega
  obtain rfl := hg.inode
  obtain ⟨n, hn⟩ := hg.ok.fileAt hg.file
  have hsmall : fileBufSize = 512 := rfl
  obtain ⟨k, blocks', used', hk, heq, hbytes, hall⟩ :=
    vfsWrite_file hg.ok hn hg.opened hmode hpos (show (f.buf.take f.bufPos).length < 2 ^ 32 by omega)
  have hmod : (f.buf.take f.bufPos).length % 2 ^ 32 = (f.buf.take f.bufPos).length :=
    Nat.mod_eq_of_lt (by omega)
  have hsys : sysWrite fs f.fd (f.buf.take f.bufPos) = vfsWrite fs f.fd (f.buf.take f.bufPos) := by
    rw [sysWrite, hmod, List.take_length, if_neg (by omega)]
  have hmut := ((vfsWrite_spec hg.ok (by omega)).of_ok heq).1
  refine ⟨_, _, hsys.trans heq, ?_, ?_⟩
  · rw [toInt32_natCast (by omega)]
    exact Int.natCast_nonneg k
  · refine ⟨⟨_, hg.mutation hmut (open_setFile hg.opened) rfl, hmode, Nat.mod_lt _ (by decide)⟩, hisWrite,
      hsize, hbuf, Nat.zero_le _, fun hroom => ?_⟩
    obtain ⟨hbefore, hwhole⟩ := hall hroom
    change bytesOf ((fs.rewritten g.inode n blocks' used').blocksOf g.inode) ++ _ = x
    rw [FileSystem.blocksOf_rewritten_self, hbytes, hwhole, List.take_length, List.take_zero,
      List.append_nil, hwritten hbefore]

/-- The buffer keeps its length. -/
theorem length_overwrite {bytes : List (BitVec 8)} {p : Nat} (h : p + s.length ≤ bytes.length) :
    (overwrite bytes p s).length = bytes.length := by
  rw [overwrite, List.length_append, List.length_append, List.length_take, List.length_drop]
  omega

/-- Bytes are put into the buffer. -/
theorem Writer.store (h : Writer fs f path a x) (hfit : f.bufPos + s.length ≤ fileBufSize) :
    Writer fs { f with buf := overwrite f.buf f.bufPos s, bufPos := f.bufPos + s.length } path a
      (x ++ s) := by
  obtain ⟨hopened, hisWrite, hsize, hbuf, hle, hwritten⟩ := h
  have hlen : (f.buf.take f.bufPos ++ s).length = f.bufPos + s.length := by
    rw [List.length_append, List.length_take]
    omega
  refine ⟨hopened, hisWrite, hsize, ?_, hfit, fun hroom => ?_⟩
  · rw [length_overwrite (by omega)]
    exact hbuf
  · rw [overwrite, List.take_left' hlen, ← List.append_assoc, hwritten hroom]

/-- A full buffer is written out, so that there is room. -/
theorem Writer.makeRoom (h : Writer fs f path a x) : ∃ n f' fs', fwriteFlush fs f = .ok (n, f', fs') ∧
    0 ≤ n ∧ f'.bufPos < fileBufSize ∧ Writer fs' f' path a x := by
  unfold fwriteFlush
  split
  · obtain ⟨n, fs', heq, hn, hflushed⟩ := h.flush
    rw [heq]
    refine ⟨n, { f with bufPos := 0 }, fs', ?_, hn, Nat.zero_lt_succ _, hflushed⟩
    simp only [bind, Except.bind, if_neg (Int.not_lt.mpr hn)]
  · rename_i hroom
    have hsize := h.size
    exact ⟨0, f, fs, rfl, le_rfl, by omega, h⟩

/-- **The loop of `fwrite`** takes all of its bytes. -/
theorem fwriteLoop_spec : ∀ (fuel : Nat) {fs : FileSystem} {f : FILE} {x : List (BitVec 8)}
    (src : List (BitVec 8)) (written : Nat), src.length ≤ fuel → Writer fs f path a x →
    ∃ f' fs', fwriteLoop fuel fs f src written = .ok (written + src.length, f', fs') ∧
      Writer fs' f' path a (x ++ src)
  | 0, fs, f, x, src, written, hfuel, h => by
    obtain rfl : src = [] := List.length_eq_zero_iff.mp (Nat.le_zero.mp hfuel)
    exact ⟨f, fs, rfl, by simpa using h⟩
  | fuel + 1, fs, f, x, src, written, hfuel, h => by
    rw [fwriteLoop]
    by_cases hnil : src = []
    · subst hnil
      exact ⟨f, fs, rfl, by simpa using h⟩
    · rw [if_neg hnil]
      obtain ⟨n, f₁, fs₁, heq, hn, hroom, h₁⟩ := h.makeRoom
      have hsize := h₁.size
      have hpos : 0 < src.length := List.length_pos_iff.mpr hnil
      generalize hchunk : min (f₁.bufSize - f₁.bufPos) src.length = chunk
      have hlen : (src.take chunk).length = chunk := by
        rw [List.length_take]
        omega
      have hrest : (src.drop chunk).length = src.length - chunk := List.length_drop
      have hstored := h₁.store (s := src.take chunk) (by omega)
      rw [hlen] at hstored
      obtain ⟨f₂, fs₂, heq₂, h₂⟩ :=
        fwriteLoop_spec fuel (src.drop chunk) (written + chunk) (by omega) hstored
      refine ⟨f₂, fs₂, ?_, ?_⟩
      · have hsum : written + chunk + (src.length - chunk) = written + src.length := by omega
        rw [heq]
        simp only [bind, Except.bind, if_neg (Int.not_lt.mpr hn), hchunk, heq₂, hrest, hsum]
      · rw [List.append_assoc, List.take_append_drop] at h₂
        exact h₂

/-- **`fwrite`** takes all of its items. -/
theorem fwrite_spec {w : FwriteArgs} (h : Writer fs f path a x) (hw : w.Fits) :
    ∃ n f' fs', fwrite fs w.data w.size w.nmemb f = .ok (n, f', fs') ∧
      Writer fs' f' path a (x ++ w.data) := by
  unfold fwrite
  split
  · rename_i hzero
    have hlen : w.data.length = 0 := by
      rw [hw.1, Nat.mul_eq_zero]
      exact hzero.resolve_left (not_not_intro h.isWrite)
    rw [List.length_eq_zero_iff.mp hlen, List.append_nil]
    exact ⟨0, f, fs, rfl, h⟩
  · have htotal : w.size * w.nmemb % 2 ^ 64 = w.data.length := by
      rw [← hw.1]
      exact Nat.mod_eq_of_lt hw.2
    obtain ⟨f', fs', heq, h'⟩ := fwriteLoop_spec w.data.length w.data 0 le_rfl h
    refine ⟨(0 + w.data.length) / w.size, f', fs', ?_, h'⟩
    simp only [htotal, List.take_length, heq]
    rfl

/-- **Any number of calls.** -/
theorem fwriteAll_spec : ∀ (ws : List FwriteArgs) {fs : FileSystem} {f : FILE} {x : List (BitVec 8)},
    (∀ w ∈ ws, w.Fits) → Writer fs f path a x → ∃ f' fs', fwriteAll ws fs f = .ok (f', fs') ∧
      Writer fs' f' path a (x ++ dataOf ws)
  | [], fs, f, x, _, h => ⟨f, fs, rfl, by simpa [dataOf] using h⟩
  | w :: ws, fs, f, x, hws, h => by
    obtain ⟨n, f₁, fs₁, heq₁, h₁⟩ := fwrite_spec h (hws w List.mem_cons_self)
    obtain ⟨f₂, fs₂, heq₂, h₂⟩ :=
      fwriteAll_spec ws (fun v hv => hws v (List.mem_cons_of_mem w hv)) h₁
    refine ⟨f₂, fs₂, ?_, ?_⟩
    · rw [fwriteAll, heq₁]
      exact heq₂
    · rw [List.append_assoc] at h₂
      exact h₂

/-- The path leads to the file at `a`, which can be opened; if the quota is not reached it holds `x`. -/
structure Holds (fs : FileSystem) (path : CString) (a : Nat) (x : List (BitVec 8)) : Prop where
  ok : fs.Ok
  file : fs.IsFile a
  name : vfsResolvePath fs path = .ok (some a)
  free : fs.freeFd ≠ none
  bytes : fs.HasRoom a → bytesOf (fs.blocksOf a) = x

/-- A descriptor is closed, and can be had again. -/
theorem Opened.close (h : Opened fs path a fd g) : ∃ fs', vfsClose fs fd = .ok (0, fs') ∧ fs'.Ok ∧
    fs'.IsFile a ∧ vfsResolvePath fs' path = .ok (some a) ∧ fs'.freeFd ≠ none ∧
    fs'.inodes = fs.inodes ∧ fs'.mountTable = fs.mountTable := by
  obtain ⟨n, hn, -⟩ := h.file
  obtain ⟨-, hmax⟩ := h.opened.range
  have hlow := h.low
  have hclose : vfsClose fs fd = .ok (0, fs.setFile fd.toNat none) := by
    rw [vfsClose, show vfsGetFile fs fd = some g from h.opened]
    simp only [bind, Except.bind, h.inode, FileSystem.deref_eq hn]
  have hmut : Mutation fs (fs.setFile fd.toNat none) := .files
  refine ⟨_, hclose, hmut.ok h.ok, h.file, (Mutation.extends_run (.single hmut)).vfsResolvePath h.name,
    fun hnone => ?_, rfl, rfl⟩
  have hused := List.find?_eq_none.mp hnone fd.toNat
    (List.mem_range'_1.mpr ⟨by omega, by simp only [vfsMaxFds] at hmax ⊢; omega⟩)
  rw [FileSystem.fileTable_setFile_self] at hused
  exact hused rfl

/-- **`fclose`** writes out what is left. -/
theorem Writer.close (h : Writer fs f path a x) : ∃ r fs', fclose fs f = .ok (r, fs') ∧
    Holds fs' path a x := by
  have hflush : ∃ n fs₁, fcloseFlush fs f = .ok (n, fs₁) ∧
      Writer fs₁ { f with bufPos := 0 } path a x := by
    unfold fcloseFlush
    split
    · obtain ⟨n, fs₁, heq, -, hflushed⟩ := h.flush
      exact ⟨n, fs₁, heq, hflushed⟩
    · rename_i hempty
      have hzero : f.bufPos = 0 := by
        by_contra hne
        exact hempty ⟨h.isWrite, Nat.pos_of_ne_zero hne⟩
      refine ⟨0, fs, rfl, ?_⟩
      rw [← hzero]
      exact h
  obtain ⟨n, fs₁, heq, hflushed⟩ := hflush
  obtain ⟨g, hg, -⟩ := hflushed.opened
  obtain ⟨fs₂, hclose, hok, hfile, hname, hfree, hinodes, hmounts⟩ := hg.close
  refine ⟨if n < 0 ∨ (0 : Int) < 0 then -1 else 0, fs₂, ?_, hok, hfile, hname, hfree, fun hroom => ?_⟩
  · rw [fclose, heq]
    change (vfsClose fs₁ f.fd >>= _) = _
    rw [show vfsClose fs₁ f.fd = _ from hclose]
    rfl
  · have hroom₁ : fs₁.HasRoom a := by
      intro m hm
      have hlt := hroom m (by rw [hinodes, hm])
      rw [FileSystem.mountOf, hmounts] at hlt
      exact hlt
    have hall := hflushed.written hroom₁
    rw [List.take_zero, List.append_nil] at hall
    have hblocks : fs₂.blocksOf a = fs₁.blocksOf a := FileSystem.blocksOf_congr (by rw [hinodes])
    rw [hblocks, hall]

end Write

/-! ## 5. Reading -/

/-- The stream reads from the file at `a`, and `rest` is still to come: what is in the buffer, and then
what is in the file from the position on. -/
structure Reader (fs : FileSystem) (f : FILE) (path : CString) (a : Nat) (rest : List (BitVec 8)) :
    Prop where
  opened : ∃ g, Opened fs path a f.fd g ∧ g.flags ≠ oWronly ∧ g.position ≤ fs.sizeAt a ∧
    rest = (f.buf.drop f.bufPos).take (f.bufLen - f.bufPos) ++
      (bytesOf (fs.blocksOf a)).drop g.position
  isRead : f.isWrite = false
  size : f.bufSize = fileBufSize
  buf : f.buf.length = fileBufSize
  len : f.bufLen ≤ fileBufSize
  short : fs.sizeAt a < 2 ^ 32

section Read

variable {fs fs' : FileSystem} {f : FILE} {path : CString} {a : Nat} {fd : Int} {g g' : File}
  {rest : List (BitVec 8)}

/-- `sys_read` of a buffer gets the bytes at the position. -/
theorem Opened.read (h : Opened fs path a fd g) (hmode : g.flags ≠ oWronly)
    (hpos : g.position ≤ fs.sizeAt a) (hshort : fs.sizeAt a < 2 ^ 32) :
    ∃ bytes fs' g', sysRead fs fd fileBufSize = .ok (bytes.length, bytes, fs') ∧
      Opened fs' path a fd g' ∧ g'.flags = g.flags ∧ g'.position = g.position + bytes.length ∧
      fs'.blocksOf a = fs.blocksOf a ∧
      bytes = ((bytesOf (fs.blocksOf a)).drop g.position).take fileBufSize := by
  obtain rfl := h.inode
  obtain ⟨n, hn⟩ := h.ok.fileAt h.file
  generalize hbytes : ((bytesOf (fs.blocksOf g.inode)).drop g.position).take fileBufSize = bytes
  have hlen : bytes.length < 2 ^ 31 := by
    rw [← hbytes, List.length_take]
    exact (Nat.min_le_left _ _).trans_lt (by decide)
  have heq := shadowfsRead_spec hn hshort hpos (show fileBufSize < 2 ^ 32 by decide)
  rw [hbytes] at heq
  refine ⟨bytes, fs.setFile fd.toNat (some { g with position := g.position + bytes.length }), _, ?_,
    h.mutation (.single .files) (open_setFile h.opened) rfl, rfl, rfl, rfl, rfl⟩
  change vfsRead fs fd fileBufSize = _
  rw [vfsRead, show vfsGetFile fs fd = some g from h.opened]
  simp only [if_neg hmode, heq, bind, Except.bind, toInt32_natCast hlen]

/-- An empty buffer is filled, unless nothing is left. -/
theorem Reader.refill (h : Reader fs f path a rest) : ∃ n f' fs', freadRefill fs f = .ok (n, f', fs') ∧
    Reader fs' f' path a rest ∧ (n ≤ 0 ∧ rest = [] ∨ 0 < n ∧ f'.bufPos < f'.bufLen) := by
  unfold freadRefill
  split
  · rename_i hempty
    obtain ⟨⟨g, hg, hmode, hpos, hrest⟩, hisRead, hsize, hbuf, hlen, hshort⟩ := h
    rw [Nat.sub_eq_zero_of_le hempty, List.take_zero, List.nil_append] at hrest
    obtain ⟨bytes, fs', g', heq, hg', hflags, hpos', hblocks, hbytes⟩ := hg.read hmode hpos hshort
    rw [← hrest] at hbytes
    have hmax : bytes.length ≤ fileBufSize := by
      rw [hbytes, List.length_take]
      exact Nat.min_le_left _ _
    have hsplit : rest = bytes ++ (bytesOf (fs'.blocksOf a)).drop g'.position := by
      obtain ⟨tail, htail⟩ : bytes <+: rest := hbytes ▸ List.take_prefix _ _
      rw [hblocks, hpos', ← List.drop_drop, ← hrest, ← htail, List.drop_left]
    have hsize' : fs'.sizeAt a = fs.sizeAt a := congrArg (fun b => (bytesOf b).length) hblocks
    have hpos₁ : g'.position ≤ fs'.sizeAt a := by
      have hle : rest.length = fs.sizeAt a - g.position := by
        rw [hrest, List.length_drop]
        rfl
      rw [hpos', hsize', hbytes, List.length_take]
      omega
    have hmode' : g'.flags ≠ oWronly := hflags ▸ hmode
    rw [hsize, heq]
    by_cases hzero : bytes = []
    · have hrest' : rest = [] := by
        rw [hzero] at hbytes
        exact (List.take_eq_nil_iff.mp hbytes.symm).resolve_left (by decide)
      refine ⟨0, f, fs', by rw [hzero]; rfl, ⟨⟨g', hg', hmode', hpos₁, ?_⟩, hisRead, hsize, hbuf, hlen,
        hsize' ▸ hshort⟩, Or.inl ⟨le_rfl, hrest'⟩⟩
      rw [Nat.sub_eq_zero_of_le hempty, List.take_zero, hsplit, hzero]
    · have hpositive : 0 < bytes.length := List.length_pos_iff.mpr hzero
      have hn : ¬ (bytes.length : Int) ≤ 0 := by omega
      have hback : ((overwrite f.buf 0 bytes).drop 0).take bytes.length = bytes :=
        (overwrite_spec (Nat.zero_le _)).1
      refine ⟨bytes.length, { f with buf := overwrite f.buf 0 bytes, bufLen := bytes.length, bufPos := 0 },
        fs', ?_, ⟨⟨g', hg', hmode', hpos₁, ?_⟩, hisRead, hsize, ?_, hmax, hsize' ▸ hshort⟩,
        Or.inr ⟨Int.not_le.mp hn, hpositive⟩⟩
      · simp only [bind, Except.bind, if_neg hn, Int.toNat_natCast, hsize]
      · simp only [Nat.sub_zero, hback]
        exact hsplit
      · rw [length_overwrite (by omega)]
        exact hbuf
  · rename_i hsome
    exact ⟨1, f, fs, rfl, h, Or.inr ⟨by decide, Nat.lt_of_not_le hsome⟩⟩

/-- Bytes are passed on. -/
theorem Reader.pass {chunk : Nat} (h : Reader fs f path a rest) (hchunk : chunk ≤ f.bufLen - f.bufPos) :
    (f.buf.drop f.bufPos).take chunk = rest.take chunk ∧
      Reader fs { f with bufPos := f.bufPos + chunk } path a (rest.drop chunk) := by
  obtain ⟨⟨g, hg, hmode, hpos, hrest⟩, hisRead, hsize, hbuf, hlen, hshort⟩ := h
  have hthere : ((f.buf.drop f.bufPos).take (f.bufLen - f.bufPos)).length = f.bufLen - f.bufPos := by
    rw [List.length_take, List.length_drop]
    omega
  refine ⟨?_, ⟨g, hg, hmode, hpos, ?_⟩, hisRead, hsize, hbuf, hlen, hshort⟩
  · rw [hrest, List.take_append_of_le_length (by omega), List.take_take, Nat.min_eq_left hchunk]
  · rw [hrest, List.drop_append_of_le_length (by omega), List.drop_take, List.drop_drop, Nat.sub_sub]

/-- **The loop of `fread`** gets what is asked for, as far as it is there. -/
theorem freadLoop_spec : ∀ (fuel : Nat) {fs : FileSystem} {f : FILE} {rest : List (BitVec 8)}
    (remaining : Nat) (dst : List (BitVec 8)), remaining ≤ fuel → Reader fs f path a rest →
    ∃ f' fs', freadLoop fuel fs f remaining dst = .ok (dst ++ rest.take remaining, f', fs') ∧
      Reader fs' f' path a (rest.drop remaining)
  | 0, fs, f, rest, remaining, dst, hfuel, h => by
    obtain rfl : remaining = 0 := Nat.le_zero.mp hfuel
    exact ⟨f, fs, by simp [freadLoop], h⟩
  | fuel + 1, fs, f, rest, remaining, dst, hfuel, h => by
    rw [freadLoop]
    by_cases hzero : remaining = 0
    · subst hzero
      exact ⟨f, fs, by simp, h⟩
    · rw [if_neg hzero]
      obtain ⟨n, f₁, fs₁, heq, h₁, ⟨hn, hrest⟩ | ⟨hn, hsome⟩⟩ := h.refill
      · subst hrest
        refine ⟨f₁, fs₁, ?_, by simpa using h₁⟩
        rw [heq]
        simp [bind, Except.bind, hn]
      · generalize hchunk : min (f₁.bufLen - f₁.bufPos) remaining = chunk
        have hle : chunk ≤ f₁.bufLen - f₁.bufPos := by omega
        obtain ⟨hbytes, h₂⟩ := h₁.pass hle
        obtain ⟨f₃, fs₃, heq₃, h₃⟩ := freadLoop_spec fuel (remaining - chunk)
          (dst ++ rest.take chunk) (by omega) h₂
        have hsum : chunk + (remaining - chunk) = remaining := by omega
        refine ⟨f₃, fs₃, ?_, ?_⟩
        · rw [heq]
          simp only [bind, Except.bind, if_neg (Int.not_le.mpr hn), hchunk, hbytes, heq₃]
          rw [List.append_assoc, ← List.take_add, hsum]
        · rw [List.drop_drop, hsum] at h₃
          exact h₃

/-- **`fread`** of single bytes. -/
theorem fread_spec {r : Nat} (h : Reader fs f path a rest) (hpos : 0 < r) (hr : r < 2 ^ 64) :
    ∃ f' fs', fread fs 1 r f = .ok ((rest.take r).length, rest.take r, f', fs') ∧
      Reader fs' f' path a (rest.drop r) := by
  unfold fread
  rw [if_neg (by simp [h.isRead]; omega)]
  obtain ⟨f', fs', heq, h'⟩ := freadLoop_spec r r [] le_rfl h
  refine ⟨f', fs', ?_, h'⟩
  simp only [Nat.one_mul, Nat.mod_eq_of_lt hr, heq, bind, Except.bind, List.nil_append, Nat.div_one]

/-- **Any sequence of requests**, none of them for nothing: together they get what they ask for, as far
as it is there.  A request that gets nothing has come to the end. -/
theorem freadUntil_spec : ∀ (rs : List Nat) {fs : FileSystem} {f : FILE} {rest : List (BitVec 8)},
    (∀ r ∈ rs, 0 < r ∧ r < 2 ^ 64) → Reader fs f path a rest → ∃ ended f' fs' rest',
      freadUntil rs fs f = .ok (rest.take rs.sum, ended, f', fs') ∧ Reader fs' f' path a rest' ∧
      (ended = true → rest.take rs.sum = rest) ∧ (rest.length < rs.length → ended = true)
  | [], fs, f, rest, _, h =>
    ⟨false, f, fs, rest, by simp [freadUntil], h, nofun, fun hlt => nomatch hlt⟩
  | r :: rs, fs, f, rest, hrs, h => by
    obtain ⟨hpos, hr⟩ := hrs r List.mem_cons_self
    obtain ⟨f₁, fs₁, heq₁, h₁⟩ := fread_spec h hpos hr
    rw [freadUntil, heq₁]
    by_cases hnone : rest = []
    · subst hnone
      refine ⟨true, f₁, fs₁, [], ?_, by simpa using h₁, ?_⟩
      · simp [bind, Except.bind]
      · simp
    · obtain ⟨ended, f₂, fs₂, rest', heq₂, h₂, hend, henough⟩ :=
        freadUntil_spec rs (fun q hq => hrs q (List.mem_cons_of_mem r hq)) h₁
      have hlen : 0 < rest.length := List.length_pos_iff.mpr hnone
      have hgot : (rest.take r).length ≠ 0 := by
        rw [List.length_take]
        omega
      refine ⟨ended, f₂, fs₂, rest', ?_, h₂, fun hended => ?_, fun hlt => henough ?_⟩
      · simp only [bind, Except.bind, if_neg hgot, heq₂, List.sum_cons, List.take_add]
        rfl
      · rw [List.sum_cons, List.take_add, hend hended, List.take_append_drop]
      · rw [List.length_drop]
        rw [List.length_cons] at hlt
        omega

end Read

/-! ## 6. Opening -/

/-- The flags of the three modes. -/
def readFlags : BitVec 32 := oRdonly
def writeFlags : BitVec 32 := oWronly ||| oCreat ||| oTrunc
def appendFlags : BitVec 32 := oWronly ||| oCreat ||| oAppend

/-- The stream that `fopen` makes. -/
def newStream (fd : Int) (isWrite : Bool) (buf : List (BitVec 8)) : FILE :=
  ⟨fd, isWrite, buf, fileBufSize, 0, 0⟩

/-- A path that `fopen` can open, or create, a file by: it leads to no directory, and if it leads to
nothing it is cut where resolution would cut it. -/
def NamesFile (fs : FileSystem) (path : CString) : Prop :=
  (∀ b, fs.resolve path = some b → fs.IsFile b) ∧ (fs.resolve path = none → SplitsWell fs path)

section Open

variable {fs fs' fs₁ : FileSystem} {path mode : CString} {a b fd : Nat} {flags : BitVec 32} {n : Inode}
  {x buf : List (BitVec 8)}

/-- A file that is there is opened. -/
theorem Holds.open (h : Holds fs path a x) (b : Nat) (flags : BitVec 32) : ∃ (fd : Nat) (fs₁ : FileSystem)
    (n : Inode), vfsOpen fs b path flags = .ok ((fd : Int), fs₁.setFile fd (some ⟨a, startAt n flags, flags⟩)) ∧
      Emptied fs a flags fs₁ ∧ fs₁.inodes a = some n ∧
      Opened (fs₁.setFile fd (some ⟨a, startAt n flags, flags⟩)) path a fd ⟨a, startAt n flags, flags⟩ := by
  obtain ⟨n₀, hn₀, -⟩ := h.file
  obtain ⟨fs₁, n, heq, hempty, hn⟩ := vfsFillFile_spec flags h.ok (b := a) (by simp [hn₀])
  have hfree : fs₁.freeFd = fs.freeFd := by
    rw [FileSystem.freeFd, hempty.fileTable]
    rfl
  obtain ⟨fd, hfd⟩ := Option.ne_none_iff_exists'.mp (hfree ▸ h.free)
  obtain ⟨hlow, hmax, -⟩ := FileSystem.freeFd_eq_some hfd
  have hmut : ReflTransGen Mutation fs (fs₁.setFile fd (some ⟨a, startAt n flags, flags⟩)) :=
    hempty.mutation.tail .files
  refine ⟨fd, fs₁, n, ?_, hempty, hn, Mutation.ok_run hmut h.ok, Mutation.isFile_run hmut h.file,
    (Mutation.extends_run hmut).vfsResolvePath h.name, ?_, rfl, by omega⟩
  · have hfind : vfsFindOrCreate fs b path flags = .ok (some a, fs) := by
      rw [vfsFindOrCreate, h.name]
      rfl
    have hopened : vfsOpenFile fs b path flags = .ok (some ⟨a, startAt n flags, flags⟩, fs₁) := by
      rw [vfsOpenFile, hfind]
      change (vfsFillFile fs a flags).map (Prod.map some id) = _
      rw [heq]
      rfl
    rw [vfsOpen, hopened]
    simp only [bind, Except.bind, hfd]
  · rw [FileSystem.Open, vfsGetFile, if_neg (by omega), Int.toNat_natCast,
      FileSystem.fileTable_setFile_self]

/-- `fopen` once `vfs_open` has returned. -/
theorem fopen_eq {isWrite : Bool} (hmode : modeFlags mode = some (flags, isWrite))
    (h : vfsOpen fs a path flags = .ok ((fd : Int), fs')) : fopen fs a path mode true (some buf) =
      .ok (some (newStream fd isWrite buf), fs') := by
  rw [fopen, hmode]
  simp only [h, bind, Except.bind]
  rw [if_neg (by omega)]
  rfl

/-- A stream comes from a descriptor. -/
theorem fopen_some {isWrite : Bool} {f : FILE} (hmode : modeFlags mode = some (flags, isWrite))
    (h : fopen fs a path mode true (some buf) = .ok (some f, fs')) : ∃ r,
      vfsOpen fs a path flags = .ok (r, fs') ∧ 0 ≤ r ∧ f = newStream r isWrite buf := by
  rw [fopen, hmode] at h
  simp only at h
  cases hopen : vfsOpen fs a path flags with
  | error e =>
    rw [hopen] at h
    cases h
  | ok y =>
    rw [hopen] at h
    simp only [bind, Except.bind] at h
    split at h
    · cases h
    · rename_i hr
      cases h
      exact ⟨y.1, rfl, Int.not_lt.mp hr, rfl⟩

/-- A new stream, with nothing in its buffer. -/
theorem Opened.writer {g : File} (h : Opened fs path a fd g) (hmode : g.flags ≠ oRdonly)
    (hpos : g.position < 2 ^ 32) (hbuf : buf.length = fileBufSize)
    (hbytes : fs.HasRoom a → bytesOf (fs.blocksOf a) = x) :
    Writer fs (newStream fd true buf) path a x :=
  ⟨⟨g, h, hmode, hpos⟩, rfl, rfl, hbuf, Nat.zero_le _, fun hroom => by
    rw [hbytes hroom, newStream, List.take_zero, List.append_nil]⟩

/-- **Mode "a"**: the stream goes on from what the file holds. -/
theorem Holds.append (h : Holds fs path a x) (b : Nat) (hbuf : buf.length = fileBufSize) :
    ∃ f fs', fopen fs b path [0x61] true (some buf) = .ok (some f, fs') ∧ Writer fs' f path a x := by
  obtain ⟨fd, fs₁, n, heq, hempty, hn, hopened⟩ := h.open b appendFlags
  refine ⟨_, _, fopen_eq rfl heq, hopened.writer (show appendFlags ≠ oRdonly by decide) ?_ hbuf ?_⟩
  · have hfile := (Mutation.ok_run hempty.mutation h.ok).fileAt
      (Mutation.isFile_run hempty.mutation h.file)
    obtain ⟨n', hat⟩ := hfile
    obtain rfl : n = n' := Option.some.inj (hn.symm.trans hat.inode)
    change startAt n appendFlags < 2 ^ 32
    rw [startAt, if_pos (by decide), hat.size]
    exact Nat.mod_lt _ (by decide)
  · cases hempty with
    | not => exact h.bytes
    | dir hflag => exact absurd hflag (by decide)
    | file hflag => exact absurd hflag (by decide)

/-- **Mode "r"**: all that the file holds is still to come. -/
theorem Holds.read (h : Holds fs path a x) (hroom : fs.HasRoom a) (hshort : x.length < 2 ^ 32) (b : Nat)
    (hbuf : buf.length = fileBufSize) : ∃ f fs', fopen fs b path [0x72] true (some buf) =
      .ok (some f, fs') ∧ Reader fs' f path a x := by
  obtain ⟨fd, fs₁, n, heq, hempty, hn, hopened⟩ := h.open b readFlags
  have hbytes := h.bytes hroom
  cases hempty with
  | dir hflag => exact absurd hflag (by decide)
  | file hflag => exact absurd hflag (by decide)
  | not hflag =>
    refine ⟨_, _, fopen_eq rfl heq, ⟨_, hopened, show readFlags ≠ oWronly by decide, Nat.zero_le _, ?_⟩,
      rfl, rfl, hbuf, Nat.zero_le _, ?_⟩
    · change x = [] ++ (bytesOf (fs.blocksOf a)).drop 0
      rw [hbytes]
      rfl
    · change (bytesOf (fs.blocksOf a)).length < 2 ^ 32
      rw [hbytes]
      exact hshort

/-- `vfs_open` follows the path first. -/
theorem vfsOpen_resolves {r : Int × FileSystem} (hfs : fs.Ok) (h : vfsOpen fs a path flags = .ok r) :
    vfsResolvePath fs path = .ok (fs.resolve path) := by
  cases hres : vfsResolvePath fs path with
  | ok y => rw [(vfsResolvePath_spec hfs path).of_ok hres]
  | error e =>
    have herror : vfsOpen fs a path flags = .error e := by
      rw [vfsOpen, vfsOpenFile, vfsFindOrCreate, hres]
      rfl
    cases herror.symm.trans h

/-- **Mode "w"**: the file is there, or is created, and the stream starts with an empty one. -/
theorem vfsOpen_write {r : Int} (hfs : fs.Ok) (ha : a ≠ 0) (hfresh : fs.inodes a = none)
    (hlen : path.length < vfsMaxPath) (hfile : NamesFile fs path)
    (h : vfsOpen fs a path writeFlags = .ok (r, fs')) (hr : 0 ≤ r) : ∃ (fd b : Nat), r = fd ∧
      Opened fs' path b fd ⟨b, 0, writeFlags⟩ ∧ bytesOf (fs'.blocksOf b) = [] := by
  have htrunc : Sets writeFlags oTrunc := by decide
  have hstart : ∀ n, startAt n writeFlags = 0 := fun n => if_neg (by decide)
  obtain ⟨file, fs₁, hopens, hcase⟩ := (vfsOpen_spec hfs ha hfresh).of_ok h
  rcases hcase with ⟨heq, -⟩ | ⟨g, fd, rfl, hfd, heq⟩
  · cases heq
    omega
  cases heq
  obtain ⟨hlow, hmax, -⟩ := FileSystem.freeFd_eq_some hfd
  have hopened : (fs₁.setFile fd (some g)).Open fd g := by
    rw [FileSystem.Open, vfsGetFile, if_neg (by omega), Int.toNat_natCast,
      FileSystem.fileTable_setFile_self]
  have hmut : ReflTransGen Mutation fs (fs₁.setFile fd (some g)) :=
    (hopens.mutation ha hfresh).1.tail .files
  have hok : (fs₁.setFile fd (some g)).Ok := Mutation.ok_run hmut hfs
  -- what O_TRUNC leaves of a file
  have hnone : ∀ {fs₀ : FileSystem} {b : Nat}, Emptied fs₀ b writeFlags fs₁ → fs₀.IsFile b →
      bytesOf ((fs₁.setFile fd (some g)).blocksOf b) = [] := by
    intro fs₀ b hempty hb
    have hview : bytesOf (fs₁.blocksOf b) = (fs₀.view b).openedBytes writeFlags :=
      congrArg ByteFile.bytes (hempty.view hb)
    exact hview.trans (if_pos htrunc)
  cases hopens with
  | @found b n _ hres hempty hn =>
    have hname : vfsResolvePath fs path = .ok (some b) := (vfsOpen_resolves hfs h).trans (by rw [hres])
    rw [hstart] at hopened hmut hok h hnone ⊢
    exact ⟨fd, b, rfl, ⟨hok, Mutation.isFile_run hmut (hfile.1 b hres),
      (Mutation.extends_run hmut).vfsResolvePath hname, hopened, rfl, by omega⟩,
      hnone hempty (hfile.1 b hres)⟩
  | @new n fs₀ _ hres hflag hcreate hempty hn =>
    have hrun : ReflTransGen Mutation fs₀
        (fs₁.setFile fd (some ⟨a, startAt n writeFlags, writeFlags⟩)) := hempty.mutation.tail .files
    have hnames := (hcreate.namesNew_iff hfs ha hfresh hlen hrun hempty.entriesOf).mpr (hfile.2 hres)
    have hb : fs₀.IsFile a := by
      obtain ⟨_, _, _, _, _, _, -, -, henters, rfl⟩ := hcreate
      exact ⟨_, FileSystem.inodes_created_new (henters.ne hfresh), rfl⟩
    rw [hstart] at hopened hmut hok h hnone hnames ⊢
    exact ⟨fd, a, rfl, ⟨hok, hnames.inode, hnames.after, hopened, rfl, by omega⟩, hnone hempty hb⟩

end Open

/-! ## 7. The round trip -/

/-- A file can be read back: by requests none of which is for nothing, and until one of them returns 0. -/
def ReadsBack (fs : FileSystem) (path : CString) (x : List (BitVec 8)) : Prop :=
  ∀ (b : Nat) (buf : List (BitVec 8)) (rs : List Nat), buf.length = fileBufSize →
    (∀ r ∈ rs, 0 < r ∧ r < 2 ^ 64) → ∃ ended fs',
      readFile fs b path [0x72] buf rs = .ok (some (x.take rs.sum, ended), fs') ∧
      (ended = true → x.take rs.sum = x) ∧ (x.length < rs.length → ended = true)

/-- The quota of the file the path leads to is not reached. -/
def RoomAt (fs : FileSystem) (path : CString) : Prop := ∀ b, fs.resolve path = some b → fs.HasRoom b

section RoundTrip

variable {fs fs' : FileSystem} {path mode : CString} {a b : Nat} {f : FILE} {x buf : List (BitVec 8)}
  {ws : List FwriteArgs}

theorem RoomAt.hasRoom (hroom : RoomAt fs path) (h : Holds fs path a x) : fs.HasRoom a :=
  hroom a ((vfsResolvePath_spec h.ok path).of_ok h.name).symm

/-- From the stream on. -/
theorem writeFile_spec (hws : ∀ w ∈ ws, w.Fits)
    (hopen : fopen fs b path mode true (some buf) = .ok (some f, fs')) (h : Writer fs' f path a x) :
    ∃ r fs₁, writeFile fs b path mode buf ws = .ok (some r, fs₁) ∧
      Holds fs₁ path a (x ++ dataOf ws) := by
  obtain ⟨f₁, fs₁, heq₁, h₁⟩ := fwriteAll_spec ws hws h
  obtain ⟨r, fs₂, heq₂, h₂⟩ := h₁.close
  refine ⟨r, fs₂, ?_, h₂⟩
  rw [writeFile, hopen]
  simp only [bind, Except.bind, heq₁, heq₂]
  rfl

theorem Holds.readsBack (h : Holds fs path a x) (hroom : fs.HasRoom a) (hshort : x.length < 2 ^ 32) :
    ReadsBack fs path x := by
  intro b buf rs hbuf hrs
  obtain ⟨f, fs₁, hopen, hreader⟩ := h.read hroom hshort b hbuf
  obtain ⟨ended, f₂, fs₂, rest, heq, h₂, hend, henough⟩ := freadUntil_spec rs hrs hreader
  obtain ⟨g, hg, -⟩ := h₂.opened
  obtain ⟨fs₃, hclose, -⟩ := hg.close
  have hflush : fcloseFlush fs₂ f₂ = .ok (0, fs₂) := by
    rw [fcloseFlush, if_neg (by simp [h₂.isRead])]
  refine ⟨ended, fs₃, ?_, hend, henough⟩
  rw [readFile, hopen]
  simp only [bind, Except.bind, heq, fclose, hflush, hclose]
  rfl

end RoundTrip

/-- `/temp/f` -/
def tempFilePath : CString := tempPath ++ [0x2F, 0x66]

/-- What `malloc` returns for a buffer. -/
def zeroBuf : List (BitVec 8) := List.replicate fileBufSize 0

/-- A result after which `/temp/f` is a file whose quota is not reached. -/
def LeavesRoom (y : Except Fault (Option Int × FileSystem)) : Bool :=
  y.toOption.any fun (r, fs) => r = some 0 && fs.resolve tempFilePath = some 0x2000 &&
    (fs.inodes 0x2000).all fun n => (fs.mountOf n.sb).used < (fs.mountOf n.sb).quota

theorem LeavesRoom.roomAt {fs : FileSystem} {r : Option Int} (h : LeavesRoom (.ok (r, fs)) = true) :
    r = some 0 ∧ RoomAt fs tempFilePath := by
  simp only [LeavesRoom, Except.toOption, Option.any_some, Bool.and_eq_true, decide_eq_true_eq] at h
  obtain ⟨⟨hr, hresolve⟩, hroom⟩ := h
  refine ⟨hr, fun b hb n hn => ?_⟩
  cases hresolve.symm.trans hb
  rw [hn] at hroom
  simpa using hroom

theorem tempFs_names : NamesFile tempFs tempFilePath := by
  have hresolve : tempFs.resolve tempFilePath = none := by decide +kernel
  refine ⟨fun b hb => ?_, fun _ => ⟨by decide, by decide, fun parentPath name hsplit => ?_⟩⟩
  · cases hresolve.symm.trans hb
  · have hok : splitPath tempFilePath = .ok (tempPath, [0x66]) := by decide +kernel
    rw [hok] at hsplit
    cases hsplit
    decide +kernel

end AcornOS
