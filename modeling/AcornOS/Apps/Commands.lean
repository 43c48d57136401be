/-
# `cat`, `ls` and `uptime` (`apps/shell/shell.c`), with `kprintf` below them

Two commands that read through a descriptor until nothing comes any more, and print what they get, and one
that prints what the timer has counted.

* `kprintf` formats into a buffer of 1024 bytes ON THE STACK and prints the string it finds there:
  the first 1023 characters of the output, up to a 0 (`kprintf_eq`).
* `cat` reads 255 bytes at a time and prints each piece as a STRING.  **`cat_prints_iff`**: what a file
  comes to is the bytes of each piece in front of its first 0, so all of the file EXACTLY IF there is
  no 0 in it; and the descriptor it took is free again.
* **`ls_prints`**: `ls` prints every entry of a directory, once and in order, with a `/` behind the
  directories.
* **`uptime_printed_iff`**: `uptime` prints the time since the start, until the counter wraps.
-/
import AcornOS.Apps.LineEditor
import AcornOS.Core.Kprintf
import AcornOS.Drivers.Clock
import AcornOS.FileSystem.Cursors
import AcornOS.FileSystem.ProcFsRead

namespace AcornOS

open Lib

/-! ## 1. The code -/

/-- The size of the buffer of `kprintf`. -/
def kprintfSize : Nat := 1024

/-- `kprintf`, when its buffer held `buf` before. -/
def kprintf (buf : List (BitVec 8)) (v : Vga) (fmt : CString) (args : VaList) : Except Fault Vga :=
  match kvsnprintf buf (BitVec.ofNat 32 kprintfSize) fmt args with
  | none => .error .overrun
  | some (_, out) => if out.overrun then .error .overrun else .ok (vgaPrint v (stringAt out.buf 0))

/-- `vga_colour` -/
def lightBlue : BitVec 32 := 9
def lightCyan : BitVec 32 := 11
def lightRed : BitVec 32 := 12
def white : BitVec 32 := 15
def black : BitVec 32 := 0

/-- `"%s"` -/
def textFormat : CString := [0x25, 0x73]

/-- `"Usgae: cat <path>\n"` -/
def catUsage : CString := ascii
  ['U', 's', 'g', 'a', 'e', ':', ' ', 'c', 'a', 't', ' ', '<', 'p', 'a', 't', 'h', '>'] ++ [newline]

/-- `"cat: cannot open %s\n"`, `"ls: cannot open %s\n"` -/
def cannotOpen : CString := ascii [':', ' ', 'c', 'a', 'n', 'n', 'o', 't', ' ', 'o', 'p', 'e', 'n', ' '] ++
  (textFormat ++ [newline])

def catCannotOpen : CString := ascii ['c', 'a', 't'] ++ cannotOpen

def lsCannotOpen : CString := ascii ['l', 's'] ++ cannotOpen

/-- `"  %s/\n"` and `"  %s\n"` -/
def lsDirFormat : CString := [space, space] ++ (textFormat ++ [slash, newline])
def lsFileFormat : CString := [space, space] ++ (textFormat ++ [newline])

/-- One string as the arguments. -/
def textArg (text : CString) : VaList := Procfs.vaArgs [Procfs.string text]

/-- An argument without the space in front of it. -/
def skipSpace (path : CString) : CString := if path.head? = some space then path.tail else path

/-- The message of a command, in light red. -/
def complain (buf : List (BitVec 8)) (v : Vga) (fmt : CString) (args : VaList) : Except Fault Vga := do
  let v ← kprintf buf (vgaSetColour v lightRed black) fmt args
  .ok (vgaSetColour v white black)

/-- The size of the reads of `cat`. -/
def catPiece : Nat := 255

section Code

-- what the buffer of `kprintf` holds when it is called, in each round
variable (stack : Nat → List (BitVec 8))

/-- The loop of `cmd_cat`, for so many rounds at most. -/
def catLoop (fd : Int) : (rounds : Nat) → FileSystem → Vga → Except Fault (Option (FileSystem × Vga))
  | 0, _, _ => .ok none
  | n + 1, fs, v => do
    let (bytes, buffer, fs) ← vfsRead fs fd catPiece
    if bytes ≤ 0 then .ok (some (fs, v))
    else do
      let v ← kprintf (stack n) v textFormat (textArg (stringAt (buffer ++ [0]) 0))
      catLoop fd n fs v

/-- `cmd_cat`; an inode that is created, which `O_RDONLY` does not do, would lie at `a`. -/
def cmdCat (fs : FileSystem) (a : Nat) (v : Vga) (path : CString) (rounds : Nat) :
    Except Fault (Option (FileSystem × Vga)) := do
  let path := skipSpace path
  if path = [] then do
    let v ← complain (stack 0) v catUsage (Procfs.vaArgs [])
    .ok (some (fs, v))
  else do
    let (fd, fs) ← vfsOpen fs a path oRdonly
    if fd < 0 then do
      let v ← complain (stack 0) v catCannotOpen (textArg path)
      .ok (some (fs, v))
    else do
      let v ← kprintf (stack 0) v [newline] (Procfs.vaArgs [])
      match ← catLoop stack fd rounds fs v with
      | none => .ok none
      | some (fs, v) => do
        let v ← kprintf (stack 0) v [newline] (Procfs.vaArgs [])
        let (_, fs) ← vfsClose fs fd
        .ok (some (fs, v))

/-- A round of the loop of `cmd_ls`. -/
def lsEntry (buf : List (BitVec 8)) (v : Vga) (dentry : Dentry) : Except Fault Vga :=
  if dentry.type = .dir then
    kprintf buf (vgaSetColour v lightBlue black) lsDirFormat (textArg dentry.name)
  else kprintf buf (vgaSetColour v white black) lsFileFormat (textArg dentry.name)

/-- The loop of `cmd_ls`, for so many rounds at most. -/
def lsLoop (fd : Int) : (rounds : Nat) → FileSystem → Vga → Except Fault (Option (FileSystem × Vga))
  | 0, _, _ => .ok none
  | n + 1, fs, v => do
    let (result, dentry, fs) ← vfsReaddir fs fd
    match dentry with
    | none => .ok (some (fs, v))
    | some dentry =>
      if result ≤ 0 then .ok (some (fs, v))
      else do
        let v ← lsEntry (stack n) v dentry
        lsLoop fd n fs v

/-- `cmd_ls` -/
def cmdLs (fs : FileSystem) (a : Nat) (v : Vga) (path : CString) (rounds : Nat) :
    Except Fault (Option (FileSystem × Vga)) := do
  let path := if skipSpace path = [] then tempPath else skipSpace path
  let (fd, fs) ← vfsOpen fs a path oRdonly
  if fd < 0 then do
    let v ← complain (stack 0) v lsCannotOpen (textArg path)
    .ok (some (fs, v))
  else do
    let v ← kprintf (stack 0) (vgaSetColour v lightCyan black) [newline] (Procfs.vaArgs [])
    match ← lsLoop stack fd rounds fs v with
    | none => .ok none
    | some (fs, v) => do
      let (_, fs) ← vfsClose fs fd
      .ok (some (fs, vgaSetColour v white black))

end Code

/-! ## 2. `kprintf` -/

section Printing

variable {buf : List (BitVec 8)} {fmt text : CString} {args : VaList}

/-- **`kprintf`** prints the output up to a 0, and no more than 1023 characters of it. -/
theorem kprintf_eq (v : Vga) (hbuf : buf.length = kprintfSize) (hfmt : FormatComplete fmt)
    (hlen : (kernelOutput fmt args).length < 2 ^ 31) : kprintf buf v fmt args =
      .ok (vgaPrint v (((kernelOutput fmt args).take (kprintfSize - 1)).takeWhile (· ≠ 0))) := by
  have hs : Sized (BitVec.ofNat 32 kprintfSize) buf := ⟨by decide, hbuf⟩
  obtain ⟨⟨length, out⟩, heq, h⟩ := kvsnprintf_spec hs hfmt hlen
  have hinside : out.overrun = false := h.inside
  have htext : stringAt out.buf 0 = ((kernelOutput fmt args).take (kprintfSize - 1)).takeWhile (· ≠ 0) := by
    have hsize : (BitVec.ofNat 32 kprintfSize).toNat = kprintfSize := rfl
    rw [stringAt, List.drop_zero, show out.buf = _ from h.buf, hsize, List.takeWhile_append,
      List.takeWhile_cons_of_neg (by simp), List.append_nil]
    split
    · rename_i hall
      exact ((List.takeWhile_prefix _).eq_of_length hall).symm
    · rfl
  rw [kprintf, heq]
  dsimp only
  rw [hinside, if_neg Bool.false_ne_true, htext]

/-- A text that fits and has no 0 in it is printed as it is. -/
theorem kprintf_text (v : Vga) (hbuf : buf.length = kprintfSize) (hfmt : FormatComplete fmt)
    (hout : kernelOutput fmt args = text) (hlen : text.length < kprintfSize) (hzero : 0 ∉ text) :
    kprintf buf v fmt args = .ok (vgaPrint v text) := by
  have hwhole : text.take (kprintfSize - 1) = text := List.take_of_length_le (Nat.le_sub_one_of_lt hlen)
  have hall : text.takeWhile (· ≠ 0) = text := by
    rw [List.takeWhile_eq_self_iff]
    intro c hc
    rw [decide_eq_true_eq]
    exact fun h0 => hzero (h0 ▸ hc)
  rw [kprintf_eq v hbuf hfmt (by rw [hout]; exact hlen.trans (by decide)), hout, hwhole, hall]

end Printing

/-! ## 3. `cat` -/

/-- What a file comes to: of each piece the bytes in front of its first 0. -/
def catText (bytes : List (BitVec 8)) : CString :=
  if bytes = [] then []
  else (bytes.take catPiece).takeWhile (· ≠ 0) ++ catText (bytes.drop catPiece)
termination_by bytes.length
decreasing_by
  rename_i h
  have hpos := List.length_pos_iff.mpr h
  rw [List.length_drop, catPiece]
  omega

section Reading

variable {fs : FileSystem} {inode : Nat} {flags : BitVec 32} {path : CString} {stack : Nat → List (BitVec 8)}
  {fd : Nat} {a : Nat}

theorem catText_nil : catText [] = [] := by
  rw [catText, if_pos rfl]

theorem catText_of_ne {bytes : List (BitVec 8)} (h : bytes ≠ []) :
    catText bytes = (bytes.take catPiece).takeWhile (· ≠ 0) ++ catText (bytes.drop catPiece) := by
  rw [catText, if_neg h]

/-- It is never longer than the file. -/
theorem length_catText_le (bytes : List (BitVec 8)) : (catText bytes).length ≤ bytes.length := by
  induction bytes using catText.induct with
  | case1 => exact (congrArg List.length catText_nil).le
  | case2 bytes h ih =>
    rw [catText_of_ne h, List.length_append]
    have hprefix := (List.takeWhile_prefix (l := bytes.take catPiece) (· ≠ (0 : BitVec 8))).length_le
    have hsplit := congrArg List.length (List.take_append_drop catPiece bytes)
    rw [List.length_append] at hsplit
    omega

/-- **The file itself**, exactly if there is no 0 in it. -/
theorem catText_eq_iff (bytes : List (BitVec 8)) : catText bytes = bytes ↔ 0 ∉ bytes := by
  induction bytes using catText.induct with
  | case1 =>
    rw [catText_nil]
    exact ⟨fun _ => List.not_mem_nil, fun _ => rfl⟩
  | case2 bytes h ih =>
    have hsplit := List.take_append_drop catPiece bytes
    rw [catText_of_ne h]
    constructor
    · intro heq hzero
      -- nothing may be missing from the first piece
      have hrest := length_catText_le (bytes.drop catPiece)
      have hprefix := List.takeWhile_prefix (l := bytes.take catPiece) (· ≠ (0 : BitVec 8))
      have hlen := congrArg List.length (heq.trans hsplit.symm)
      rw [List.length_append, List.length_append] at hlen
      have hpiece := hprefix.eq_of_length (by have := hprefix.length_le; omega)
      have hdrop : catText (bytes.drop catPiece) = bytes.drop catPiece := by
        rw [hpiece] at heq
        exact List.append_cancel_left (heq.trans hsplit.symm)
      rw [← hsplit, List.mem_append] at hzero
      rcases hzero with hzero | hzero
      · have hall := List.takeWhile_eq_self_iff.mp hpiece 0 hzero
        exact absurd hall (by decide)
      · exact ih.mp hdrop hzero
    · intro hzero
      have hpiece : (bytes.take catPiece).takeWhile (· ≠ 0) = bytes.take catPiece := by
        rw [List.takeWhile_eq_self_iff]
        intro c hc
        rw [decide_eq_true_eq]
        exact fun h0 => hzero (List.mem_of_mem_take (h0 ▸ hc))
      rw [hpiece, ih.mpr fun hd => hzero (List.mem_of_mem_drop hd), hsplit]

theorem FileSystem.setFile_setFile (fs : FileSystem) (f g : Option File) :
    (fs.setFile fd f).setFile fd g = fs.setFile fd g := by
  unfold FileSystem.setFile
  rw [Function.update_idem]

theorem vfsGetFile_opened (hmax : fd < vfsMaxFds) (f : Option File) :
    vfsGetFile (fs.setFile fd f) (fd : Int) = f := by
  have hget := @vfsGetFile_setFile fs f fd fd (Int.natCast_nonneg fd) (by omega)
  rwa [if_pos rfl, Int.toNat_natCast] at hget

/-- **Opening to read**: the first free descriptor, at the beginning. -/
theorem vfsOpen_rdonly (hpath : vfsResolvePath fs path = .ok (some inode)) (hlive : fs.inodes inode ≠ none)
    (hfree : fs.freeFd = some fd) :
    vfsOpen fs a path oRdonly = .ok ((fd : Int), fs.setFile fd (some ⟨inode, 0, oRdonly⟩)) := by
  obtain ⟨n, hn⟩ := Option.ne_none_iff_exists'.mp hlive
  have htrunc : ¬ Sets oRdonly oTrunc := by decide
  have happend : ¬ Sets oRdonly oAppend := by decide
  simp only [vfsOpen, vfsOpenFile, vfsFindOrCreate, hpath, vfsFillFile, vfsTruncateOpened, if_neg htrunc,
    FileSystem.deref_eq hn, startAt, if_neg happend, bind, Except.bind, Except.map, Prod.map, id_eq, hfree]

/-- Closing what was opened, at whatever position. -/
theorem vfsClose_opened (hlive : fs.inodes inode ≠ none) (hfree : fs.freeFd = some fd) (p : Nat) :
    vfsClose (fs.setFile fd (some ⟨inode, p, flags⟩)) (fd : Int) = .ok (0, fs) := by
  obtain ⟨-, hmax, hnone⟩ := FileSystem.freeFd_eq_some hfree
  obtain ⟨n, hn⟩ := Option.ne_none_iff_exists'.mp hlive
  have hderef : (fs.setFile fd (some ⟨inode, p, flags⟩)).deref inode = .ok n := FileSystem.deref_eq hn
  simp only [vfsClose, vfsGetFile_opened hmax, hderef, bind, Except.bind, Int.toNat_natCast,
    Vfs.setFile_unset hnone]

/-- Reading on. -/
theorem vfsRead_opened {n : Inode} {blocks : List ShadowfsBlock} {size : Nat} (hn : fs.FileAt inode n blocks)
    (hlen : (bytesOf blocks).length < 2 ^ 31) (hmax : fd < vfsMaxFds) {p : Nat}
    (hp : p ≤ (bytesOf blocks).length) (hsize : size < 2 ^ 32) :
    vfsRead (fs.setFile fd (some ⟨inode, p, oRdonly⟩)) (fd : Int) size =
      .ok ((((bytesOf blocks).drop p).take size).length, ((bytesOf blocks).drop p).take size,
        fs.setFile fd (some ⟨inode, p + (((bytesOf blocks).drop p).take size).length, oRdonly⟩)) := by
  have hat : (fs.setFile fd (some ⟨inode, p, oRdonly⟩)).FileAt inode n blocks :=
    ⟨hn.inode, hn.data, hn.ok, hn.size⟩
  have hread := @shadowfsRead_spec _ _ _ ⟨inode, p, oRdonly⟩ size hat (hlen.trans (by decide)) hp hsize
  have hmode : ¬ oRdonly = oWronly := by decide
  have hint : toInt32 (((bytesOf blocks).drop p).take size).length =
      (((bytesOf blocks).drop p).take size).length := by
    refine toInt32_natCast ?_
    rw [List.length_take, List.length_drop]
    omega
  simp only [vfsRead, vfsGetFile_opened hmax, if_neg hmode, hread, bind, Except.bind, hint,
    Int.toNat_natCast, FileSystem.setFile_setFile]

theorem kernelOutput_textArg (text : CString) : kernelOutput textFormat (textArg text) = text :=
  List.append_nil text

/-- **The loop of `cat`**, from any position. -/
theorem catLoop_spec (hstack : ∀ n, (stack n).length = kprintfSize) {n : Inode} {blocks : List ShadowfsBlock}
    (hn : fs.FileAt inode n blocks) (hlen : (bytesOf blocks).length < 2 ^ 31) (hmax : fd < vfsMaxFds) :
    ∀ (rounds p : Nat) (v : Vga), p ≤ (bytesOf blocks).length →
      (bytesOf blocks).length + catPiece ≤ p + catPiece * rounds →
      catLoop stack fd rounds (fs.setFile fd (some ⟨inode, p, oRdonly⟩)) v =
        .ok (some (fs.setFile fd (some ⟨inode, (bytesOf blocks).length, oRdonly⟩),
          vgaPrint v (catText ((bytesOf blocks).drop p)))) := by
  have hsize : catPiece = 255 := rfl
  intro rounds
  induction rounds with
  | zero =>
    intro p v hp hrounds
    omega
  | succ k ih =>
    intro p v hp hrounds
    rw [Nat.mul_succ] at hrounds
    have hread := @vfsRead_opened fs inode fd n blocks catPiece hn hlen hmax p hp (by decide)
    unfold catLoop
    rw [hread]
    simp only [bind, Except.bind]
    by_cases hend : p = (bytesOf blocks).length
    · have hnil : (bytesOf blocks).drop p = [] := List.drop_eq_nil_of_le hend.ge
      rw [hnil, List.take_nil, catText_nil, if_pos (by decide), hend]
      rfl
    · have hlt : p < (bytesOf blocks).length := Nat.lt_of_le_of_ne hp hend
      have hpiece : (((bytesOf blocks).drop p).take catPiece).length =
          min catPiece ((bytesOf blocks).length - p) := by rw [List.length_take, List.length_drop]
      have hne : (bytesOf blocks).drop p ≠ [] := by
        rw [← List.length_pos_iff, List.length_drop]
        omega
      have hstring : stringAt (((bytesOf blocks).drop p).take catPiece ++ [0]) 0 =
          (((bytesOf blocks).drop p).take catPiece).takeWhile (· ≠ 0) := by
        rw [stringAt, List.drop_zero, List.takeWhile_append, List.takeWhile_cons_of_neg (by simp)]
        split
        · rename_i hall
          rw [List.append_nil, (List.takeWhile_prefix _).eq_of_length hall]
        · rfl
      have hshort := (List.takeWhile_prefix (l := ((bytesOf blocks).drop p).take catPiece)
        (· ≠ (0 : BitVec 8))).length_le
      have hprint := @kprintf_text (stack k) textFormat _ _ v (hstack k) (by decide)
        (kernelOutput_textArg ((((bytesOf blocks).drop p).take catPiece).takeWhile (· ≠ 0)))
        (by rw [kprintfSize]; omega)
        (fun hmem => absurd (List.mem_takeWhile_imp hmem) (by decide))
      have hpos : 0 < (((bytesOf blocks).drop p).take catPiece).length := by
        rw [hpiece]
        omega
      rw [if_neg (by omega), hstring, hprint]
      dsimp only
      have hmore : (bytesOf blocks).length + catPiece ≤
          p + (((bytesOf blocks).drop p).take catPiece).length + catPiece * k := by
        by_cases hlast : catPiece ≤ (bytesOf blocks).length - p
        · omega
        · have hk : 1 ≤ k := Nat.pos_of_ne_zero fun h0 => by
            rw [h0, Nat.mul_zero] at hrounds
            omega
          have hone := Nat.mul_le_mul_left catPiece hk
          omega
      rw [ih _ _ (by rw [hpiece]; omega) hmore,
        ← vgaPrint_append, catText_of_ne hne, List.drop_drop]
      by_cases hlast : catPiece ≤ (bytesOf blocks).length - p
      · rw [hpiece, Nat.min_eq_left hlast]
      · have hdone : (bytesOf blocks).drop (p + catPiece) = [] := List.drop_eq_nil_of_le (by omega)
        have hdone' : (bytesOf blocks).drop (p + ((bytesOf blocks).length - p)) = [] :=
          List.drop_eq_nil_of_le (by omega)
        rw [hpiece, Nat.min_eq_right (by omega), hdone, hdone']

theorem skipSpace_space (path : CString) : skipSpace (space :: path) = path := rfl

theorem kprintf_newline {buf : List (BitVec 8)} (v : Vga) (hbuf : buf.length = kprintfSize) :
    kprintf buf v [newline] (Procfs.vaArgs []) = .ok (vgaPrint v [newline]) :=
  kprintf_text v hbuf (by decide) rfl (by decide) (by decide)

/-- **`cat`** of a file prints its text between two newlines, and the descriptor is free again.  The text is
the file EXACTLY IF there is no 0 in it. -/
theorem cat_prints_iff (stack : Nat → List (BitVec 8)) (hstack : ∀ n, (stack n).length = kprintfSize)
    (fs : FileSystem) (hfs : fs.Ok) (a : Nat) (v : Vga) (path : CString) (hne : path ≠ [])
    (inode : Nat) (hpath : vfsResolvePath fs path = .ok (some inode)) (hfile : fs.IsFile inode)
    (hlen : fs.sizeAt inode < 2 ^ 31) (hfree : fs.freeFd ≠ none) (rounds : Nat)
    (hrounds : fs.sizeAt inode + catPiece ≤ catPiece * rounds) :
    cmdCat stack fs a v (space :: path) rounds = .ok (some (fs,
      vgaPrint v ([newline] ++ (catText (bytesOf (fs.blocksOf inode)) ++ [newline])))) ∧
    (catText (bytesOf (fs.blocksOf inode)) = bytesOf (fs.blocksOf inode) ↔
      0 ∉ bytesOf (fs.blocksOf inode)) := by
  obtain ⟨n, hn⟩ := hfs.fileAt hfile
  obtain ⟨fd, hfd⟩ := Option.ne_none_iff_exists'.mp hfree
  obtain ⟨-, hmax, -⟩ := FileSystem.freeFd_eq_some hfd
  have hlive : fs.inodes inode ≠ none := by
    rw [hn.inode]
    exact Option.some_ne_none n
  have hloop := catLoop_spec hstack hn hlen hmax rounds 0 (vgaPrint v [newline]) (Nat.zero_le _)
    (by rw [Nat.zero_add]; exact hrounds)
  refine ⟨?_, catText_eq_iff _⟩
  unfold cmdCat
  rw [skipSpace_space, if_neg hne, vfsOpen_rdonly hpath hlive hfd]
  simp only [bind, Except.bind]
  rw [if_neg (by omega), kprintf_newline v (hstack 0)]
  dsimp only
  rw [hloop]
  dsimp only
  rw [kprintf_newline _ (hstack 0)]
  dsimp only
  rw [vfsClose_opened hlive hfd, vgaPrint_append, vgaPrint_append, List.drop_zero]

/-- `"hi"` in `/temp/f`. -/
def hiFs : FileSystem := (tempFileFs.after 0x3000 (.write 3 [0x68, 0x69])).after 0x3000 (.close 3)

theorem hiFs_reached : Reached (fun _ _ => True) hiFs :=
  ((tempFileFs_reached _ trivial trivial).tail
    (.after (by decide) (by decide +kernel) (by simp [Call.Sized]) trivial (by decide +kernel))).tail
    (.after (by decide) (by decide +kernel) trivial trivial (by decide +kernel))

theorem cat_prints_iff_hi : cmdCat (fun _ => List.replicate kprintfSize 0) hiFs 0
    ⟨fun _ => 0, 0, 0, 0x0F, false⟩ (space :: (tempPath ++ [0x2F, 0x66])) 2 = .ok (some (hiFs,
      vgaPrint ⟨fun _ => 0, 0, 0, 0x0F, false⟩ [newline, 0x68, 0x69, newline])) := by
  have hbytes : bytesOf (hiFs.blocksOf 0x2000) = [0x68, 0x69] := by decide +kernel
  have hsize : hiFs.sizeAt 0x2000 = 2 := congrArg List.length hbytes
  have hfree : hiFs.freeFd.isSome = true := by decide +kernel
  have hresolve : (vfsResolvePath hiFs (tempPath ++ [0x2F, 0x66])).toOption = some (some 0x2000) := by
    decide +kernel
  have htype : (hiFs.inodes 0x2000).map Inode.type = some .file := by decide +kernel
  obtain ⟨n, hn, hfile⟩ := Option.map_eq_some_iff.mp htype
  obtain ⟨hprints, hiff⟩ := cat_prints_iff (fun _ => List.replicate kprintfSize 0)
    (fun _ => List.length_replicate) hiFs hiFs_reached.ok 0 ⟨fun _ => 0, 0, 0, 0x0F, false⟩
    (tempPath ++ [0x2F, 0x66]) (by decide) 0x2000 (toOption_eq_some.mp hresolve) ⟨n, hn, hfile⟩
    (by rw [hsize]; decide) (Option.isSome_iff_ne_none.mp hfree) 2 (by rw [hsize]; decide)
  rw [hprints, hiff.mpr (by rw [hbytes]; decide), hbytes]
  rfl

end Reading

/-! ## 4. `ls` -/

/-- The entries of a directory. -/
def dentriesOf (fs : FileSystem) (d : Nat) : List Dentry :=
  (fs.entriesOf d).map fun e =>
    ⟨kstrcpy e.name vfsMaxName, e.inode, (fs.inodes e.inode).elim .file Inode.type⟩

/-- What `ls` makes of one. -/
def lsShow (v : Vga) (dentry : Dentry) : Vga :=
  if dentry.type = .dir then
    vgaPrint (vgaSetColour v lightBlue black) ([space, space] ++ (dentry.name ++ [slash, newline]))
  else vgaPrint (vgaSetColour v white black) ([space, space] ++ (dentry.name ++ [newline]))

section Listing

variable {fs : FileSystem} {d : Nat} {fd : Nat} {stack : Nat → List (BitVec 8)} {buf : List (BitVec 8)}

theorem mem_dentriesOf {fs : FileSystem} {dentry : Dentry} (h : dentry ∈ dentriesOf fs d)
    (hnames : ∀ e ∈ fs.entriesOf d, 0 ∉ e.name) : 0 ∉ dentry.name ∧ dentry.name.length < vfsMaxName := by
  obtain ⟨e, he, rfl⟩ := List.mem_map.mp h
  refine ⟨fun hzero => hnames e he (List.mem_of_mem_take hzero), ?_⟩
  have hlen := List.length_take_le (vfsMaxName - 1) e.name
  exact Nat.lt_of_le_of_lt hlen (by decide)

/-- A line of `ls`. -/
theorem lsEntry_eq (v : Vga) (hbuf : buf.length = kprintfSize) {dentry : Dentry} (hzero : 0 ∉ dentry.name)
    (hlen : dentry.name.length < vfsMaxName) : lsEntry buf v dentry = .ok (lsShow v dentry) := by
  have hsize : vfsMaxName = 64 := rfl
  have hroom : kprintfSize = 1024 := rfl
  have hdir : kernelOutput lsDirFormat (textArg dentry.name) =
      [space, space] ++ (dentry.name ++ [slash, newline]) := rfl
  have hfile : kernelOutput lsFileFormat (textArg dentry.name) =
      [space, space] ++ (dentry.name ++ [newline]) := rfl
  have hclean : ∀ t : CString, 0 ∉ t → 0 ∉ [space, space] ++ (dentry.name ++ t) := by
    intro t ht hmem
    rcases List.mem_append.mp hmem with hmem | hmem
    · exact absurd hmem (by decide)
    · exact (List.mem_append.mp hmem).elim hzero ht
  unfold lsEntry lsShow
  split
  · refine kprintf_text _ hbuf (by decide) hdir ?_ (hclean _ (by decide))
    simp only [List.length_append, List.length_cons, List.length_nil]
    omega
  · refine kprintf_text _ hbuf (by decide) hfile ?_ (hclean _ (by decide))
    simp only [List.length_append, List.length_cons, List.length_nil]
    omega

/-- Listing on. -/
theorem vfsReaddir_opened (hfs : fs.Ok) (hdir : fs.IsDir d) (hmax : fd < vfsMaxFds) (p : Nat)
    (hp : p + 1 < 2 ^ 32) : vfsReaddir (fs.setFile fd (some ⟨d, p, oRdonly⟩)) (fd : Int) =
      .ok (if (dentriesOf fs d)[p]?.isSome then 1 else 0, (dentriesOf fs d)[p]?,
        fs.setFile fd (some ⟨d, if (dentriesOf fs d)[p]?.isSome then p + 1 else p, oRdonly⟩)) := by
  obtain ⟨n, entries, count, hn, hdata⟩ := FileSystem.isDir_iff.mp hdir
  have htype : ¬ n.type ≠ .dir := by
    rw [Inode.type, hdata]
    exact fun h => h rfl
  have hderef : ∀ b m, fs.inodes b = some m →
      (fs.setFile fd (some ⟨d, p, oRdonly⟩)).deref b = .ok m := fun b m hm => FileSystem.deref_eq hm
  have hentries := FileSystem.entriesOf_dir hn hdata
  have hget : (dentriesOf fs d)[p]? = entries[p]?.map fun e =>
      ⟨kstrcpy e.name vfsMaxName, e.inode, (fs.inodes e.inode).elim .file Inode.type⟩ := by
    rw [dentriesOf, hentries, List.getElem?_map]
  simp only [vfsReaddir, vfsGetFile_opened hmax, hderef d n hn, bind, Except.bind, if_neg htype,
    shadowfsReaddir, hdata, hget]
  cases hp' : entries[p]? with
  | none =>
    simp only [Option.map_none, Int.toNat_natCast, FileSystem.setFile_setFile]
    rfl
  | some e =>
    have hmem : e ∈ fs.entriesOf d := by
      rw [hentries]
      exact List.mem_of_getElem? hp'
    obtain ⟨m, hm⟩ := Option.ne_none_iff_exists'.mp (hfs.live d e hmem)
    simp only [hderef e.inode m hm, hm, Option.map_some, Option.elim_some, Int.toNat_natCast,
      FileSystem.setFile_setFile, add32_eq hp]
    rfl

/-- **The loop of `ls`**, from any entry. -/
theorem lsLoop_spec (hstack : ∀ n, (stack n).length = kprintfSize) (hfs : fs.Ok) (hdir : fs.IsDir d)
    (hnames : ∀ e ∈ fs.entriesOf d, 0 ∉ e.name) (hlen : (dentriesOf fs d).length + 1 < 2 ^ 32)
    (hmax : fd < vfsMaxFds) :
    ∀ (rounds p : Nat) (v : Vga), p ≤ (dentriesOf fs d).length → (dentriesOf fs d).length < p + rounds →
      lsLoop stack fd rounds (fs.setFile fd (some ⟨d, p, oRdonly⟩)) v =
        .ok (some (fs.setFile fd (some ⟨d, (dentriesOf fs d).length, oRdonly⟩),
          ((dentriesOf fs d).drop p).foldl lsShow v)) := by
  intro rounds
  induction rounds with
  | zero =>
    intro p v hp hrounds
    omega
  | succ k ih =>
    intro p v hp hrounds
    unfold lsLoop
    rw [vfsReaddir_opened hfs hdir hmax p (by omega)]
    simp only [bind, Except.bind]
    rcases Nat.lt_or_ge p (dentriesOf fs d).length with hlt | hge
    · rw [List.getElem?_eq_getElem hlt]
      obtain ⟨hzero, hshort⟩ := mem_dentriesOf (List.getElem_mem hlt) hnames
      simp only [Option.isSome_some, if_true]
      rw [if_neg (by decide), lsEntry_eq v (hstack k) hzero hshort]
      dsimp only
      rw [ih (p + 1) _ hlt (by omega), List.drop_eq_getElem_cons hlt, List.foldl_cons]
    · have hend : p = (dentriesOf fs d).length := Nat.le_antisymm hp hge
      rw [List.getElem?_eq_none hge, hend, List.drop_length]
      rfl

/-- **`ls`** prints every entry of the directory, once and in order, and the descriptor is free again. -/
theorem ls_prints (stack : Nat → List (BitVec 8)) (hstack : ∀ n, (stack n).length = kprintfSize)
    (fs : FileSystem) (hfs : fs.Ok) (a : Nat) (v : Vga) (args : CString) (d : Nat)
    (hpath : vfsResolvePath fs (if skipSpace args = [] then tempPath else skipSpace args) = .ok (some d))
    (hdir : fs.IsDir d) (hnames : ∀ e ∈ fs.entriesOf d, 0 ∉ e.name)
    (hlen : (dentriesOf fs d).length + 1 < 2 ^ 32) (hfree : fs.freeFd ≠ none) (rounds : Nat)
    (hrounds : (dentriesOf fs d).length < rounds) :
    cmdLs stack fs a v args rounds = .ok (some (fs, vgaSetColour
      ((dentriesOf fs d).foldl lsShow (vgaPrint (vgaSetColour v lightCyan black) [newline])) white black)) := by
  obtain ⟨fd, hfd⟩ := Option.ne_none_iff_exists'.mp hfree
  obtain ⟨-, hmax, -⟩ := FileSystem.freeFd_eq_some hfd
  have hlive : fs.inodes d ≠ none := by
    obtain ⟨n, hn, -⟩ := hdir
    rw [hn]
    exact Option.some_ne_none n
  have hloop := lsLoop_spec hstack hfs hdir hnames hlen hmax rounds 0
    (vgaPrint (vgaSetColour v lightCyan black) [newline]) (Nat.zero_le _) (by omega)
  unfold cmdLs
  dsimp only
  rw [vfsOpen_rdonly hpath hlive hfd]
  simp only [bind, Except.bind]
  rw [if_neg (by omega), kprintf_newline _ (hstack 0)]
  dsimp only
  rw [hloop]
  dsimp only
  rw [vfsClose_opened hlive hfd, List.drop_zero]

/-- `/temp` with one file in it. -/
theorem ls_prints_temp : cmdLs (fun _ => List.replicate kprintfSize 0) tempFileFs 0
    ⟨fun _ => 0, 0, 0, 0x0F, false⟩ [] 2 = .ok (some (tempFileFs, vgaSetColour
      (lsShow (vgaPrint (vgaSetColour ⟨fun _ => 0, 0, 0, 0x0F, false⟩ lightCyan black) [newline])
        ⟨[0x66], 0x2000, .file⟩) white black)) := by
  have hentries : tempFileFs.entriesOf 0x1000 = [⟨[0x66], 0x2000⟩] := by decide +kernel
  have hlisted : dentriesOf tempFileFs 0x1000 = [⟨[0x66], 0x2000, .file⟩] := by decide +kernel
  have hfree : tempFileFs.freeFd.isSome = true := by decide +kernel
  have hresolve : (vfsResolvePath tempFileFs tempPath).toOption = some (some 0x1000) := by decide +kernel
  have htype : (tempFileFs.inodes 0x1000).map Inode.type = some .dir := by decide +kernel
  obtain ⟨n, hn, hdir⟩ := Option.map_eq_some_iff.mp htype
  have hprints := ls_prints (fun _ => List.replicate kprintfSize 0) (fun _ => List.length_replicate) tempFileFs
    (tempFileFs_reached (fun _ _ => True) trivial trivial).ok 0 ⟨fun _ => 0, 0, 0, 0x0F, false⟩ [] 0x1000
    (toOption_eq_some.mp hresolve) ⟨n, hn, hdir⟩
    (by rw [hentries]; intro e he; obtain rfl := List.mem_singleton.mp he; decide)
    (by rw [hlisted]; decide) (Option.isSome_iff_ne_none.mp hfree) 2 (by rw [hlisted]; decide)
  rwa [hlisted] at hprints

end Listing

/-! ## 5. `uptime` -/

section Uptime

/-- `timer_get_seconds`, with this counter. -/
def timerGetSeconds (ticks : BitVec 32) : BitVec 32 := ticks / clockFrequency

/-- `"\nUptime: "` -/
def uptimeLabel : CString := newline :: ascii ['U', 'p', 't', 'i', 'm', 'e', ':', ' ']

/-- `"\nUptime: %uh %um %us\n"` -/
def uptimeFormat : CString :=
  uptimeLabel ++ ascii ['%', 'u', 'h', ' ', '%', 'u', 'm', ' ', '%', 'u', 's'] ++ [newline]

/-- `%u` of an `uint32_t`. -/
def unsignedArg (n : BitVec 32) : VaSlot := Procfs.number (n.setWidth 64)

/-- `cmd_uptime` -/
def cmdUptime (buf : List (BitVec 8)) (ticks : BitVec 32) (v : Vga) : Except Fault Vga :=
  let seconds := timerGetSeconds ticks
  let minutes := seconds / 60
  let hours := minutes / 60
  kprintf buf (vgaSetColour v white black) uptimeFormat
    (Procfs.vaArgs [unsignedArg hours, unsignedArg (minutes % 60), unsignedArg (seconds % 60)])

/-- Hours, minutes and seconds, with their letters behind them. -/
def uptimeFields (hours minutes seconds : Nat) : CString :=
  ((uptimeLabel ++ numeral decDigit 10 hours) ++ 0x68 :: space :: numeral decDigit 10 minutes) ++
    0x6D :: space :: numeral decDigit 10 seconds ++ 0x73 :: [newline]

/-- The uptime of this many seconds, as the command shows it. -/
def uptimeLine (seconds : Nat) : CString :=
  uptimeFields (seconds / 3600) (seconds / 60 % 60) (seconds % 60)

variable {n hours hours' minutes minutes' seconds seconds' : Nat} {ticks : BitVec 32} {v : Vga}

theorem kernelOutput_uptime (h m s : BitVec 32) :
    kernelOutput uptimeFormat (Procfs.vaArgs [unsignedArg h, unsignedArg m, unsignedArg s]) =
      uptimeFields h.toNat m.toNat s.toNat := by
  have hint : ∀ n : BitVec 32, (unsignedArg n).int = n := by
    intro n
    simp [unsignedArg, Procfs.number, VaSlot.int]
  have hfields : uptimeFields h.toNat m.toNat s.toNat =
      uptimeFields (unsignedArg h).int.toNat (unsignedArg m).int.toNat (unsignedArg s).int.toNat := by
    rw [hint, hint, hint]
  rw [hfields]
  simp only [uptimeFields, List.append_assoc, List.cons_append]
  rfl

theorem notMem_numeral {c : BitVec 8} (hc : ¬ IsDigit c) (n : Nat) : c ∉ numeral decDigit 10 n := fun h =>
  hc (isDigit_of_mem_numeral h)

/-- The three numbers can be read back, from the last to the first. -/
theorem uptimeFields_inj (h : uptimeFields hours minutes seconds = uptimeFields hours' minutes' seconds') :
    hours = hours' ∧ minutes = minutes' ∧ seconds = seconds' := by
  have hread : ∀ {m n : Nat}, numeral decDigit 10 m = numeral decDigit 10 n → m = n := by
    intro m n hmn
    have hvalue := congrArg (readNumeral digitValue 10) hmn
    rwa [readNumeral_pid, readNumeral_pid] at hvalue
  have hfree : ∀ {c : BitVec 8}, c ≠ space → ¬ IsDigit c → ∀ n, c ∉ space :: numeral decDigit 10 n := by
    intro c hc hdigit n hmem
    exact (List.mem_cons.mp hmem).elim hc (notMem_numeral hdigit n)
  obtain ⟨h, -⟩ := append_cons_inj_last (by decide) (by decide) h
  obtain ⟨h, hseconds⟩ := append_cons_inj_last (hfree (by decide) (by decide) _)
    (hfree (by decide) (by decide) _) h
  obtain ⟨h, hminutes⟩ := append_cons_inj_last (hfree (by decide) (by decide) _)
    (hfree (by decide) (by decide) _) h
  exact ⟨hread (List.append_cancel_left h), hread (List.cons.inj hminutes).2,
    hread (List.cons.inj hseconds).2⟩

theorem uptimeLine_inj (h : uptimeLine seconds = uptimeLine seconds') : seconds = seconds' := by
  obtain ⟨hhours, hminutes, hseconds⟩ := uptimeFields_inj h
  omega

/-- The line fits into the buffer of `kprintf`, and has no 0 in it. -/
theorem uptimeFields_fits (h : hours < 2 ^ 32 ∧ minutes < 2 ^ 32 ∧ seconds < 2 ^ 32) :
    (uptimeFields hours minutes seconds).length < kprintfSize ∧ 0 ∉ uptimeFields hours minutes seconds := by
  have hshort : ∀ {k : Nat}, k < 2 ^ 32 → (numeral decDigit 10 k).length ≤ 10 := fun hk =>
    length_numeral_le decDigit (by decide) (by decide) (hk.trans (by decide))
  have hzero : ∀ k, (0 : BitVec 8) ∉ numeral decDigit 10 k := notMem_numeral (by decide)
  have hlabel : uptimeLabel.length = 9 := rfl
  have hlabelZero : (0 : BitVec 8) ∉ uptimeLabel := by decide
  have hh := hshort h.1
  have hm := hshort h.2.1
  have hs := hshort h.2.2
  constructor
  · simp only [uptimeFields, List.length_append, List.length_cons, List.length_nil, hlabel, kprintfSize]
    omega
  · simp only [uptimeFields, List.mem_append, List.mem_cons, hzero, hlabelZero, List.not_mem_nil, or_false,
      false_or]
    decide

/-- What `uptime` prints after `n` ticks. -/
theorem cmdUptime_eq (h : TimerRun n ticks v) {buf : List (BitVec 8)} (hbuf : buf.length = kprintfSize) :
    cmdUptime buf ticks v =
      .ok (vgaPrint (vgaSetColour v white black) (uptimeLine (n % 2 ^ 32 / 100))) := by
  have hseconds : (timerGetSeconds ticks).toNat = n % 2 ^ 32 / 100 := by
    rw [timerGetSeconds, h.ticks_eq, BitVec.toNat_udiv, BitVec.toNat_ofNat]
    rfl
  have hsixty : (60 : BitVec 32).toNat = 60 := rfl
  have hhours : (timerGetSeconds ticks / 60 / 60).toNat = n % 2 ^ 32 / 100 / 3600 := by
    rw [BitVec.toNat_udiv, BitVec.toNat_udiv, hseconds, hsixty, Nat.div_div_eq_div_mul]
  have hminutes : (timerGetSeconds ticks / 60 % 60).toNat = n % 2 ^ 32 / 100 / 60 % 60 := by
    rw [BitVec.toNat_umod, BitVec.toNat_udiv, hseconds, hsixty]
  have hrest : (timerGetSeconds ticks % 60).toNat = n % 2 ^ 32 / 100 % 60 := by
    rw [BitVec.toNat_umod, hseconds, hsixty]
  obtain ⟨hlen, hzero⟩ := uptimeFields_fits
    ⟨(timerGetSeconds ticks / 60 / 60).isLt, (timerGetSeconds ticks / 60 % 60).isLt,
      (timerGetSeconds ticks % 60).isLt⟩
  have hprint := kprintf_text (vgaSetColour v white black) hbuf (by decide) (kernelOutput_uptime _ _ _)
    hlen hzero
  rw [hhours, hminutes, hrest] at hprint
  exact hprint

/-- **`uptime`** prints hours, minutes and seconds that name one uptime and no other, and that is the time
since the start EXACTLY UNTIL THE COUNTER WRAPS, after 497 days. -/
theorem uptime_printed_iff (h : TimerRun n ticks v) (buf : List (BitVec 8))
    (hbuf : buf.length = kprintfSize) : ∃ text,
      cmdUptime buf ticks v = .ok (vgaPrint (vgaSetColour v white black) text) ∧
      (text = uptimeLine (n / 100) ↔ n < 2 ^ 32) ∧
      ∀ seconds, text = uptimeLine seconds ↔ seconds = n % 2 ^ 32 / 100 := by
  refine ⟨_, cmdUptime_eq h hbuf, ⟨fun htext => ?_, fun hlt => ?_⟩, fun seconds => ⟨fun htext => ?_, ?_⟩⟩
  · have hseconds := uptimeLine_inj htext
    omega
  · rw [Nat.mod_eq_of_lt hlt]
  · exact (uptimeLine_inj htext).symm
  · rintro rfl
    rfl

/-- One second after the start. -/
theorem uptime_printed_iff_second : ∃ (ticks : BitVec 32) (v : Vga), TimerRun 100 ticks v ∧
    cmdUptime (List.replicate kprintfSize 0) ticks v =
      .ok (vgaPrint (vgaSetColour v white black) (uptimeLine 1)) := by
  obtain ⟨ticks, v, h⟩ := timerRun_exists 100
  obtain ⟨text, hprint, htext, -⟩ := uptime_printed_iff h (List.replicate kprintfSize 0) List.length_replicate
  rw [htext.mpr (by decide)] at hprint
  exact ⟨ticks, v, h, hprint⟩

end Uptime

end AcornOS
