/-
# What the files of procFS say (`procfs_read`)

A file of procFS has no bytes of its own: EVERY read prints the whole text into a buffer of 512 characters
and hands out the part at the position.

* `procfsRead_eq`: the text always fits, so a read is the part of the text that is asked for, whatever was
  in the buffer.
* **`procfs_reads_text`**: reads of any sizes, with nothing changing in between, give the text from the
  position on, piece by piece.  If the text changes in between the pieces are of different texts.
* **`procfs_status_faithful`**: two processes have the same `status` only if name, PID, parent and state are
  the same, though a name may hold newlines and look like other lines.  The text is read from its END: the
  last three lines cannot hold a newline.
-/
import AcornOS.FileSystem.ProcFs
import AcornOS.Memory.PmmCounters

namespace AcornOS

open Lib

/-! ## 1. The code -/

/-- The bytes of a text. -/
def ascii (s : List Char) : CString := s.map fun c => BitVec.ofNat 8 c.toNat

namespace Procfs

/-- A line: a label, a directive and a newline. -/
def line (label directive : List Char) : CString := ascii label ++ ascii directive ++ [0x0A]

def nameLabel : List Char := ['N', 'a', 'm', 'e', ':', ' ', ' ', ' ', ' ', ' ', ' ']
def pidLabel : List Char := ['P', 'I', 'D', ':', ' ', ' ', ' ', ' ', ' ', ' ', ' ']
def parentLabel : List Char := ['P', 'a', 'r', 'e', 'n', 't', ':', ' ', ' ', ' ', ' ']
def stateLabel : List Char := ['S', 't', 'a', 't', 'e', ':', ' ', ' ', ' ', ' ', ' ']
def stackLabel : List Char := ['S', 't', 'a', 'c', 'k', ':', ' ', ' ', ' ', ' ', ' ', '0', 'x']
def stackTopLabel : List Char := ['S', 't', 'a', 'c', 'k', 'T', 'o', 'p', ':', ' ', ' ', '0', 'x']
def totalLabel : List Char := ['M', 'e', 'm', 'T', 'o', 't', 'a', 'l', ':', ' ', ' ']
def freeLabel : List Char := ['M', 'e', 'm', 'F', 'r', 'e', 'e', ':', ' ', ' ', ' ']
def usedLabel : List Char := ['M', 'e', 'm', 'U', 's', 'e', 'd', ':', ' ', ' ', ' ']

def statusFormat : CString :=
  line nameLabel ['%', 's'] ++ line pidLabel ['%', 'l', 'u'] ++ line parentLabel ['%', 'l', 'u'] ++
    line stateLabel ['%', 's']

def memoryFormat : CString :=
  line stackLabel ['%', 'l', 'x'] ++ line stackTopLabel ['%', 'l', 'x']

def meminfoFormat : CString :=
  line totalLabel ['%', 'l', 'u', ' ', 'K', 'B'] ++ line freeLabel ['%', 'l', 'u', ' ', 'K', 'B'] ++
    line usedLabel ['%', 'l', 'u', ' ', 'K', 'B']

def mountsText : CString :=
  line ['/', 't', 'e', 'm', 'p', ' ', ' ', ' ', ' ', ' ', ' ', ' ', ' ']
      ['s', 'h', 'a', 'd', 'o', 'w', 'F', 'S'] ++
    line ['/', 'd', 'e', 'v', 'i', 'c', 'e', 's', ' ', ' ', ' ', ' ', ' '] ['d', 'e', 'v', 'F', 'S'] ++
    line ['/', 'p', 'r', 'o', 'c', 'e', 's', 's', ' ', ' ', ' ', ' ', ' '] ['p', 'r', 'o', 'c', 'F', 'S']

def notFoundText : CString :=
  line ['P', 'r', 'o', 'c', 'e', 's', 's', ' ', 'n', 'o', 't', ' '] ['f', 'o', 'u', 'n', 'd']

def filesText : CString :=
  line ['f', 'd', ' ', 't', 'a', 'b', 'l', 'e', ' ', 'n', 'o', 't', ' ', 'y', 'e', 't', ' ']
    ['p', 'e', 'r', '-', 'p', 'r', 'o', 'c', 'e', 's', 's']

/-- The word for a state. -/
def stateText : ProcessState → CString
  | .ready => ascii ['r', 'e', 'a', 'd', 'y']
  | .running => ascii ['r', 'u', 'n', 'n', 'i', 'n', 'g']
  | .blocked => ascii ['b', 'l', 'o', 'c', 'k', 'e', 'd']
  | .dead => ascii ['d', 'e', 'a', 'd']
  | .sleeping => ascii ['s', 'l', 'e', 'e', 'p', 'i', 'n', 'g']

/-- The arguments of a call. -/
def vaArgs (slots : List VaSlot) : VaList := fun i => slots.getD i ⟨0, []⟩

/-- A number as an argument. -/
def number (n : BitVec 64) : VaSlot := ⟨n, []⟩

/-- A string as an argument, somewhere in the kernel. -/
def string (text : CString) : VaSlot := ⟨0xFFFFFFFF80000000, text⟩

/-- `%lu` of a `uint64_t` field. -/
def field (n : Nat) : VaSlot := number (BitVec.ofNat 64 n)

def statusArgs (p : Process) : VaList :=
  vaArgs [string p.name, field p.pid, field p.parentPid, string (stateText p.state)]

def memoryArgs (p : Process) : VaList := vaArgs [field p.stack, field p.stackTop]

def meminfoArgs (pm : Pmm) : VaList :=
  let freePages := pmmFreePages pm
  let usedPages := pmmUsedPages pm
  let totalPages := freePages + usedPages
  vaArgs [number (totalPages * 4), number (freePages * 4), number (usedPages * 4)]

/-- The `ksnprintf` that `procfs_read` comes to for an inode, if it comes to one. -/
def call (s : Kernel) (node : ProcfsInode) : Option (CString × VaList) :=
  match node.type with
  | .infoFile =>
    if node.name = Vfs.meminfo then some (meminfoFormat, meminfoArgs s.machine.pmm)
    else if node.name = Vfs.mounts then some (mountsText, vaArgs [])
    else none
  | .pidFile =>
    match s.findSlot fun p => p ≠ 0 && (s.pcb p).pid == node.pid with
    | none => some (notFoundText, vaArgs [])
    | some i =>
      let process := s.pcb (s.processTable i)
      if node.name = Vfs.status then some (statusFormat, statusArgs process)
      else if node.name = Vfs.memory then some (memoryFormat, memoryArgs process)
      else if node.name = Vfs.files then some (filesText, vaArgs [])
      else none
  | _ => none

/-- The text of a file. -/
def text (s : Kernel) (node : ProcfsInode) : CString :=
  (call s node).elim [] fun c => kernelOutput c.1 c.2

end Procfs

/-- `sizeof(temp)` -/
def procfsTempSize : Nat := 512

/-- `length` and `temp`, when `temp` held `temp` before. -/
def procfsPrint (s : Kernel) (node : ProcfsInode) (temp : List (BitVec 8)) :
    Except Fault (Int × List (BitVec 8)) :=
  match Procfs.call s node with
  | none => .ok (0, temp)
  | some (fmt, args) =>
    match kvsnprintf temp (BitVec.ofNat 32 procfsTempSize) fmt args with
    | none => .error .overrun
    | some (length, out) => if out.overrun then .error .overrun else .ok (length, out.buf)

/-- `procfs_read`: what it copies, and the file after it. -/
def procfsRead (s : Kernel) (node : ProcfsInode) (temp : List (BitVec 8)) (file : File) (size : Nat) :
    Except Fault (List (BitVec 8) × File) := do
  let (length, temp) ← procfsPrint s node temp
  let length := (BitVec.ofInt 32 length).toNat
  if file.position ≥ length then .ok ([], file)
  else
    let available := sub32 length file.position
    let toCopy := if size < available then size else available
    if file.position + toCopy > temp.length then .error .overrun
    else .ok ((temp.drop file.position).take toCopy,
      { file with position := add32 file.position toCopy })

/-- A read: the kernel at that time, what `temp` happens to hold, and the size. -/
structure ProcfsReading where
  kernel : Kernel
  temp : List (BitVec 8)
  size : Nat

/-- Reads of one descriptor, one after the other. -/
def procfsReads (node : ProcfsInode) :
    List ProcfsReading → File → Except Fault (List (List (BitVec 8)) × File)
  | [], file => .ok ([], file)
  | r :: rest, file => do
    let (bytes, file) ← procfsRead r.kernel node r.temp file r.size
    let (pieces, file) ← procfsReads node rest file
    .ok (bytes :: pieces, file)

/-! ## 2. The texts -/

/-- The names fit into `name[32]`. -/
def Kernel.NamesFit (s : Kernel) : Prop := ∀ p ∈ s.processes, (s.pcb p).name.length < 32

namespace Procfs

section Texts

variable {s : Kernel} {node : ProcfsInode} {p q : Process} {temp : List (BitVec 8)}

/-- `%lu` -/
def decimalText (n : Nat) : CString := numeral decDigit 10 (BitVec.ofNat 64 n).toNat

/-- `%lx` -/
def hexText (n : Nat) : CString := fixedNumeral upperDigit 16 16 (BitVec.ofNat 64 n).toNat

/-- `status` -/
def statusText (p : Process) : CString :=
  ascii nameLabel ++ (p.name ++ 0x0A :: (ascii pidLabel ++ (decimalText p.pid ++
    0x0A :: (ascii parentLabel ++ (decimalText p.parentPid ++
      0x0A :: (ascii stateLabel ++ (stateText p.state ++ [0x0A])))))))

theorem kernelOutput_status (p : Process) : kernelOutput statusFormat (statusArgs p) = statusText p := rfl

theorem kernelOutput_text {t : CString} (h : percentSign ∉ t) (fmt : CString) (args : VaList) :
    kernelOutput (t ++ fmt) args = t ++ kernelOutput fmt args := by
  induction t with
  | nil => rfl
  | cons c t ih =>
    rw [List.mem_cons, not_or] at h
    obtain ⟨hc, ht⟩ := h
    rw [List.cons_append, kernelOutput, formatPieces_lit (Ne.symm hc), List.cons_append, ← ih ht]
    rfl

theorem kernelOutput_hex (fmt : CString) (args : VaList) :
    kernelOutput (percentSign :: (modifier true ++ 0x78 :: fmt)) args =
      fixedNumeral upperDigit 16 16 (args 0).word.toNat ++ kernelOutput fmt fun i => args (i + 1) := by
  have hspec : true = false → (0x78 : BitVec 8) ≠ longSign := fun h => nomatch h
  rw [kernelOutput, formatPieces_conv hspec, render, kernelExpand, if_neg (by decide),
    if_neg (by decide), if_pos rfl, if_pos rfl]
  rfl

theorem kernelOutput_memory (p : Process) : kernelOutput memoryFormat (memoryArgs p) =
    ascii stackLabel ++ (hexText p.stack ++
      ([0x0A] ++ ascii stackTopLabel ++ (hexText p.stackTop ++ [0x0A]))) := by
  have hformat : memoryFormat = ascii stackLabel ++ percentSign :: (modifier true ++
      0x78 :: ([0x0A] ++ ascii stackTopLabel ++ percentSign :: (modifier true ++ 0x78 :: [0x0A]))) := rfl
  rw [hformat, kernelOutput_text (by decide), kernelOutput_hex, kernelOutput_text (by decide),
    kernelOutput_hex]
  rfl

/-- A line of `meminfo`. -/
def kbText (label : List Char) (n : BitVec 64) : CString :=
  ascii label ++ (numeral decDigit 10 n.toNat ++ [0x20, 0x4B, 0x42, 0x0A])

theorem kernelOutput_meminfo (pm : Pmm) : kernelOutput meminfoFormat (meminfoArgs pm) =
    kbText totalLabel ((pmmFreePages pm + pmmUsedPages pm) * 4) ++
      (kbText freeLabel (pmmFreePages pm * 4) ++ kbText usedLabel (pmmUsedPages pm * 4)) := by
  simp only [kbText, List.append_assoc]
  rfl

theorem length_numeral64_le (n : BitVec 64) : (numeral decDigit 10 n.toNat).length ≤ 20 :=
  length_numeral_le decDigit (by decide) (by decide) (n.isLt.trans (by decide))

theorem length_stateText_le (state : ProcessState) : (stateText state).length ≤ 8 := by
  cases state <;> decide

theorem length_statusText_le (h : p.name.length < 32) : (statusText p).length ≤ 127 := by
  have hpid : (decimalText p.pid).length ≤ 20 := length_numeral64_le _
  have hparent : (decimalText p.parentPid).length ≤ 20 := length_numeral64_le _
  have hstate := length_stateText_le p.state
  have hlabels : (ascii nameLabel).length = 11 ∧ (ascii pidLabel).length = 11 ∧
      (ascii parentLabel).length = 11 ∧ (ascii stateLabel).length = 11 := by decide
  obtain ⟨hname, hpidl, hparentl, hstatel⟩ := hlabels
  simp only [statusText, List.length_append, List.length_cons, List.length_nil, hname, hpidl, hparentl,
    hstatel]
  omega

theorem length_kbText_le {label : List Char} (hlabel : label.length = 11) (n : BitVec 64) :
    (kbText label n).length ≤ 35 := by
  have hnumeral := length_numeral64_le n
  simp only [kbText, ascii, List.length_append, List.length_map, List.length_cons, List.length_nil, hlabel]
  omega

/-- **Every text fits**, and its format is complete. -/
theorem call_fits (hnames : s.NamesFit) {fmt : CString} {args : VaList} (h : call s node = some (fmt, args)) :
    FormatComplete fmt ∧ (kernelOutput fmt args).length < procfsTempSize := by
  have hfixed : ∀ {t : CString}, FormatComplete t → (kernelOutput t (vaArgs [])).length < procfsTempSize →
      some (t, vaArgs []) = some (fmt, args) →
      FormatComplete fmt ∧ (kernelOutput fmt args).length < procfsTempSize := by
    intro t hcomplete hlen heq
    obtain ⟨rfl, rfl⟩ := Prod.mk.inj (Option.some.inj heq)
    exact ⟨hcomplete, hlen⟩
  unfold call at h
  split at h
  · split at h
    · obtain ⟨rfl, rfl⟩ := Prod.mk.inj (Option.some.inj h)
      refine ⟨by decide, ?_⟩
      rw [kernelOutput_meminfo, List.length_append, List.length_append]
      have htotal := @length_kbText_le totalLabel rfl
        ((pmmFreePages s.machine.pmm + pmmUsedPages s.machine.pmm) * 4)
      have hfree := @length_kbText_le freeLabel rfl (pmmFreePages s.machine.pmm * 4)
      have hused := @length_kbText_le usedLabel rfl (pmmUsedPages s.machine.pmm * 4)
      rw [procfsTempSize]
      omega
    · split at h
      · exact hfixed (by decide) (by decide) h
      · cases h
  · split at h
    · exact hfixed (by decide) (by decide) h
    · rename_i i hslot
      obtain ⟨hi, htest⟩ := findSlot_eq_some hslot
      rw [Bool.and_eq_true, decide_eq_true_eq] at htest
      have hname := hnames _ (mem_processes hi htest.1)
      dsimp only at h
      split at h
      · obtain ⟨rfl, rfl⟩ := Prod.mk.inj (Option.some.inj h)
        refine ⟨by decide, ?_⟩
        rw [kernelOutput_status]
        exact (length_statusText_le hname).trans_lt (by decide)
      · split at h
        · obtain ⟨rfl, rfl⟩ := Prod.mk.inj (Option.some.inj h)
          refine ⟨by decide, ?_⟩
          rw [kernelOutput_memory]
          simp only [List.length_append, List.length_cons, List.length_nil, hexText, length_fixedNumeral]
          decide
        · split at h
          · exact hfixed (by decide) (by decide) h
          · cases h
  · cases h

/-- What `ksnprintf` leaves in the buffer begins with the text. -/
theorem procfsPrint_eq (hnames : s.NamesFit) (htemp : temp.length = procfsTempSize) :
    ∃ rest, procfsPrint s node temp = .ok ((text s node).length, text s node ++ rest) ∧
      (text s node ++ rest).length = procfsTempSize := by
  unfold procfsPrint text
  cases hcall : call s node with
  | none => exact ⟨temp, rfl, htemp⟩
  | some c =>
    obtain ⟨fmt, args⟩ := c
    obtain ⟨hcomplete, hlen⟩ := call_fits hnames hcall
    have hs : Sized (BitVec.ofNat 32 procfsTempSize) temp := ⟨by decide, htemp⟩
    have hshort : (kernelOutput fmt args).length < 2 ^ 31 := hlen.trans (by decide)
    obtain ⟨r, heq, h⟩ := kvsnprintf_spec hs hcomplete hshort
    obtain ⟨length, out⟩ := r
    have hout : (kernelOutput fmt args).take (procfsTempSize - 1) = kernelOutput fmt args :=
      List.take_of_length_le (Nat.le_sub_one_of_lt hlen)
    have hbuf := h.buf
    have hsize : (BitVec.ofNat 32 procfsTempSize).toNat = procfsTempSize := rfl
    rw [hsize, hout, Nat.min_eq_right (Nat.le_sub_one_of_lt hlen)] at hbuf
    refine ⟨0 :: temp.drop ((kernelOutput fmt args).length + 1), ?_, ?_⟩
    · dsimp only
      rw [heq]
      dsimp only
      have hreturns : length = (kernelOutput fmt args).length := h.returns
      have hinside : out.overrun = false := h.inside
      rw [hinside, hreturns, if_neg (by decide)]
      exact congrArg (fun b => Except.ok (_, b)) hbuf
    · simp only [Option.elim_some, List.length_append, List.length_cons, List.length_drop, htemp]
      omega

end Texts

end Procfs

/-! ## 3. Reading -/

/-- A read that the kernel can really make. -/
structure ProcfsReading.Proper (r : ProcfsReading) : Prop where
  names : r.kernel.NamesFit
  temp : r.temp.length = procfsTempSize
  size : r.size < 2 ^ 32

section Reads

variable {r : ProcfsReading} {node : ProcfsInode} {file : File}

/-- **`procfs_read`** hands out the part of the text at the position. -/
theorem procfsRead_eq (hr : r.Proper) (node : ProcfsInode) (file : File) :
    procfsRead r.kernel node r.temp file r.size =
      .ok (((Procfs.text r.kernel node).drop file.position).take r.size, { file with
        position := file.position + (((Procfs.text r.kernel node).drop file.position).take r.size).length })
      := by
  obtain ⟨rest, hprint, hlen⟩ := @Procfs.procfsPrint_eq r.kernel node r.temp hr.names hr.temp
  generalize Procfs.text r.kernel node = t at *
  have htlt : t.length ≤ procfsTempSize := by
    rw [← hlen, List.length_append]
    exact Nat.le_add_right _ _
  have hint : (BitVec.ofInt 32 (t.length : Int)).toNat = t.length := by
    rw [BitVec.ofInt_natCast, BitVec.toNat_ofNat, Nat.mod_eq_of_lt (htlt.trans_lt (by decide))]
  unfold procfsRead
  rw [hprint]
  simp only [bind, Except.bind, hint]
  have hsize := hr.size
  have h512 : procfsTempSize = 512 := rfl
  by_cases hpos : file.position ≥ t.length
  · rw [if_pos hpos, List.drop_eq_nil_of_le hpos]
    simp
  · have havailable : sub32 t.length file.position = t.length - file.position := by
      rw [sub32]
      omega
    have hcopy : (if r.size < t.length - file.position then r.size else t.length - file.position) =
        ((t.drop file.position).take r.size).length := by
      rw [List.length_take, List.length_drop]
      split <;> omega
    have hle : ((t.drop file.position).take r.size).length ≤ t.length - file.position := by
      rw [List.length_take, List.length_drop]
      exact Nat.min_le_right _ _
    rw [if_neg hpos, havailable, hcopy, if_neg (by omega), add32, Nat.mod_eq_of_lt (by omega)]
    refine congrArg (fun b => Except.ok (b, _)) ?_
    rw [List.drop_append_of_le_length (by omega), List.take_append_of_le_length (by
      rw [List.length_drop]
      exact hle)]
    simp

/-- **Reading in pieces.**  If the text of the file is the same at every read, then reads of any sizes
give the text from the position on, cut into pieces of these sizes, and the position moves along; so
together they give all that is left, once the sizes are large enough. -/
theorem procfs_reads_text (node : ProcfsInode) (t : CString) (reads : List ProcfsReading) (file : File)
    (hreads : ∀ r ∈ reads, r.Proper ∧ Procfs.text r.kernel node = t) :
    ∃ pieces, procfsReads node reads file = .ok (pieces, { file with
        position := file.position + ((t.drop file.position).take (reads.map (·.size)).sum).length }) ∧
      pieces = (reads.map (·.size)).splitLengths (t.drop file.position) ∧
      (t.length ≤ file.position + (reads.map (·.size)).sum → pieces.flatten = t.drop file.position) := by
  refine ⟨_, ?_, rfl, fun hle => List.flatten_splitLengths _ _ ?_⟩
  · induction reads generalizing file with
    | nil => simp [procfsReads]
    | cons r reads ih =>
      obtain ⟨hr, rfl⟩ := hreads r List.mem_cons_self
      generalize ht : Procfs.text r.kernel node = t at *
      rw [procfsReads, procfsRead_eq hr, ht]
      simp only [bind, Except.bind]
      rw [ih _ fun r' hr' => hreads r' (List.mem_cons_of_mem r hr')]
      have hdrop : t.drop (file.position + ((t.drop file.position).take r.size).length) =
          (t.drop file.position).drop r.size := by
        rw [List.length_take, List.length_drop, List.drop_drop]
        by_cases hsize : r.size ≤ t.length - file.position
        · rw [Nat.min_eq_left hsize]
        · rw [List.drop_eq_nil_of_le (by omega), List.drop_eq_nil_of_le (by omega)]
      simp only [hdrop, List.map_cons, List.sum_cons, List.splitLengths_cons]
      refine congrArg (fun n => Except.ok (_, { file with position := n })) ?_
      simp only [List.length_take, List.length_drop]
      omega
  · rw [List.length_drop]
    omega

end Reads

/-! ## 4. What a status tells -/

section Faithful

variable {α : Type} {u u' v v' : List α} {a : α} {p q : Process}

/-- Cutting at the last separator. -/
theorem append_cons_inj_last (hv : a ∉ v) (hv' : a ∉ v') (h : u ++ a :: v = u' ++ a :: v') :
    u = u' ∧ v = v' := by
  rcases List.append_eq_append_iff.mp h with ⟨w, rfl, hw⟩ | ⟨w, rfl, hw⟩
  · cases w with
    | nil => exact ⟨(List.append_nil _).symm, (List.cons.inj hw).2⟩
    | cons x w =>
      refine absurd ?_ hv
      rw [(List.cons.inj hw).2]
      simp
  · cases w with
    | nil => exact ⟨List.append_nil _, (List.cons.inj hw).2.symm⟩
    | cons x w =>
      refine absurd ?_ hv'
      rw [(List.cons.inj hw).2]
      simp

theorem newline_notMem_decimalText (n : Nat) : 0x0A ∉ Procfs.decimalText n := fun h =>
  absurd (isDigit_of_mem_numeral h) (by decide)

theorem newline_notMem_stateText (state : ProcessState) : 0x0A ∉ Procfs.stateText state := by
  cases state <;> decide

theorem stateText_injective : Function.Injective Procfs.stateText := by
  intro x y h
  cases x <;> cases y <;> first | rfl | exact absurd h (by decide)

theorem decimalText_injective {m n : Nat} (hm : m < 2 ^ 64) (hn : n < 2 ^ 64)
    (h : Procfs.decimalText m = Procfs.decimalText n) : m = n := by
  have hread := congrArg (readNumeral digitValue 10) h
  unfold Procfs.decimalText at hread
  rwa [readNumeral_pid, readNumeral_pid, BitVec.toNat_ofNat, BitVec.toNat_ofNat, Nat.mod_eq_of_lt hm,
    Nat.mod_eq_of_lt hn] at hread

/-- **The status tells everything it prints**, whatever the name looks like. -/
theorem statusText_injective (hp : p.pid < 2 ^ 64 ∧ p.parentPid < 2 ^ 64)
    (hq : q.pid < 2 ^ 64 ∧ q.parentPid < 2 ^ 64) (h : Procfs.statusText p = Procfs.statusText q) :
    p.name = q.name ∧ p.pid = q.pid ∧ p.parentPid = q.parentPid ∧ p.state = q.state := by
  have hlines : ∀ p : Process, Procfs.statusText p = ((((ascii Procfs.nameLabel ++ p.name) ++
      0x0A :: (ascii Procfs.pidLabel ++ Procfs.decimalText p.pid)) ++
      0x0A :: (ascii Procfs.parentLabel ++ Procfs.decimalText p.parentPid)) ++
      0x0A :: (ascii Procfs.stateLabel ++ Procfs.stateText p.state)) ++ 0x0A :: [] := by
    intro p
    simp only [Procfs.statusText, List.append_assoc, List.cons_append]
  have hfree : ∀ {label : List Char} {x : CString}, (0x0A : BitVec 8) ∉ ascii label → 0x0A ∉ x →
      (0x0A : BitVec 8) ∉ ascii label ++ x := by
    intro label x hl hx hmem
    exact (List.mem_append.mp hmem).elim hl hx
  rw [hlines p, hlines q] at h
  -- from the last line to the first
  obtain ⟨h, -⟩ := append_cons_inj_last List.not_mem_nil List.not_mem_nil h
  obtain ⟨h, hstate⟩ := append_cons_inj_last (hfree (by decide) (newline_notMem_stateText _))
    (hfree (by decide) (newline_notMem_stateText _)) h
  obtain ⟨h, hparent⟩ := append_cons_inj_last (hfree (by decide) (newline_notMem_decimalText _))
    (hfree (by decide) (newline_notMem_decimalText _)) h
  obtain ⟨hname, hpid⟩ := append_cons_inj_last (hfree (by decide) (newline_notMem_decimalText _))
    (hfree (by decide) (newline_notMem_decimalText _)) h
  exact ⟨List.append_cancel_left hname,
    decimalText_injective hp.1 hq.1 (List.append_cancel_left hpid),
    decimalText_injective hp.2 hq.2 (List.append_cancel_left hparent),
    stateText_injective (List.append_cancel_left hstate)⟩

end Faithful

/-- The processes have PIDs of their own, which fit their type, as those of their parents do. -/
structure Kernel.Identified (s : Kernel) : Prop where
  fit : s.PidsFit
  parents : ∀ p ∈ s.processes, (s.pcb p).parentPid < 2 ^ 64
  distinct : Set.InjOn (fun p => (s.pcb p).pid) s.processes

/-- What a status reports. -/
def SameStatus (p q : Process) : Prop :=
  p.name = q.name ∧ p.pid = q.pid ∧ p.parentPid = q.parentPid ∧ p.state = q.state

/-- `/process/<pid>/status` -/
def statusNode (pid : Nat) : ProcfsInode := ⟨.pidFile, pid, Vfs.status⟩

section Status

variable {s : Kernel} {p : Nat}

theorem text_status (hs : s.Identified) (hp : p ∈ s.processes) :
    Procfs.text s (statusNode (s.pcb p).pid) = Procfs.statusText (s.pcb p) := by
  unfold Procfs.text Procfs.call statusNode
  dsimp only
  cases hslot : s.findSlot fun a => a ≠ 0 && (s.pcb a).pid == (s.pcb p).pid with
  | none => exact absurd rfl (findSlot_pid_eq_none_iff.mp hslot p hp)
  | some i =>
    obtain ⟨hi, htest⟩ := findSlot_eq_some hslot
    rw [Bool.and_eq_true, decide_eq_true_eq, beq_iff_eq] at htest
    have hsame : s.processTable i = p := hs.distinct (mem_processes hi htest.1) hp htest.2
    dsimp only
    rw [if_pos rfl, hsame]
    exact Procfs.kernelOutput_status _

theorem text_status_missing {pid : Nat} (h : ∀ a ∈ s.processes, (s.pcb a).pid ≠ pid) :
    Procfs.text s (statusNode pid) = Procfs.notFoundText := by
  unfold Procfs.text Procfs.call statusNode
  dsimp only
  rw [findSlot_pid_eq_none_iff.mpr h]
  rfl

/-- **What `status` says is true of one process only.**  Two status files have the same text exactly if
name, PID, parent and state are the same; and no process's status reads like that of a process that is
gone. -/
theorem procfs_status_faithful (s s' : Kernel) (hs : s.Identified) (hs' : s'.Identified) (p q : Nat)
    (hp : p ∈ s.processes) (hq : q ∈ s'.processes) :
    (Procfs.text s (statusNode (s.pcb p).pid) = Procfs.text s' (statusNode (s'.pcb q).pid) ↔
      SameStatus (s.pcb p) (s'.pcb q)) ∧
    ∀ pid, (∀ a ∈ s'.processes, (s'.pcb a).pid ≠ pid) →
      Procfs.text s' (statusNode pid) ≠ Procfs.text s (statusNode (s.pcb p).pid) := by
  refine ⟨?_, fun pid hgone heq => ?_⟩
  · rw [text_status hs hp, text_status hs' hq]
    constructor
    · exact statusText_injective ⟨hs.fit p hp, hs.parents p hp⟩ ⟨hs'.fit q hq, hs'.parents q hq⟩
    · rintro ⟨hname, hpid, hparent, hstate⟩
      rw [Procfs.statusText, Procfs.statusText, hname, hpid, hparent, hstate]
  · rw [text_status_missing hgone, text_status hs hp] at heq
    -- one begins with a P, the other with an N
    have hhead : (0x50 : BitVec 8) = 0x4E := Option.some.inj (congrArg List.head? heq)
    exact absurd hhead (by decide)

end Status

theorem mem_processes_twoQueued (p : Nat) (hp : p ∈ twoQueued.processes) : p = 0x1000 ∨ p = 0x2000 := by
  obtain ⟨hne, i, -, rfl⟩ := hp
  unfold twoQueued at hne ⊢
  dsimp only at hne ⊢
  split
  · exact Or.inl rfl
  · rename_i hi
    rw [if_neg hi] at hne
    split
    · exact Or.inr rfl
    · rename_i hi'
      rw [if_neg hi'] at hne
      exact absurd rfl hne

/-- `mounts`, in two pieces. -/
theorem procfs_reads_text_mounts : ∃ pieces file,
    procfsReads ⟨.infoFile, 0, Vfs.mounts⟩ [⟨twoQueued, List.replicate procfsTempSize 0, 22⟩,
      ⟨twoQueued, List.replicate procfsTempSize 0, 255⟩] ⟨0x3000, 0, oRdonly⟩ = .ok (pieces, file) ∧
      pieces.flatten = Procfs.mountsText := by
  have htemp : (List.replicate procfsTempSize (0 : BitVec 8)).length = procfsTempSize :=
    List.length_replicate
  have hnames : twoQueued.NamesFit := by
    intro p hp
    rcases mem_processes_twoQueued p hp with rfl | rfl <;> decide
  have hsizes : 22 < 2 ^ 32 ∧ 255 < 2 ^ 32 := by decide
  have hlength : Procfs.mountsText.length ≤ 0 + (22 + (255 + 0)) := by decide
  have htext : Procfs.text twoQueued ⟨.infoFile, 0, Vfs.mounts⟩ = Procfs.mountsText := by decide +kernel
  obtain ⟨pieces, hok, -, hall⟩ := procfs_reads_text ⟨.infoFile, 0, Vfs.mounts⟩ Procfs.mountsText
    [⟨twoQueued, List.replicate procfsTempSize 0, 22⟩, ⟨twoQueued, List.replicate procfsTempSize 0, 255⟩]
    ⟨0x3000, 0, oRdonly⟩ (by
      intro r hr
      rcases List.mem_cons.mp hr with rfl | hr
      · exact ⟨⟨hnames, htemp, hsizes.1⟩, htext⟩
      · obtain rfl := List.mem_singleton.mp hr
        exact ⟨⟨hnames, htemp, hsizes.2⟩, htext⟩)
  exact ⟨pieces, _, hok, hall hlength⟩

/-- Two processes that differ in more than their PIDs. -/
theorem procfs_status_faithful_two : Procfs.text twoQueued (statusNode 1) ≠
    Procfs.text twoQueued (statusNode 2) := by
  have h1 : 0x1000 ∈ twoQueued.processes := mem_processes (s := twoQueued) (i := 0) (by decide) (by decide)
  have h2 : 0x2000 ∈ twoQueued.processes := mem_processes (s := twoQueued) (i := 1) (by decide) (by decide)
  have hidentified : twoQueued.Identified := by
    refine ⟨fun p hp => ?_, fun p hp => ?_, fun p hp q hq hpid => ?_⟩
    · rcases mem_processes_twoQueued p hp with rfl | rfl <;> decide
    · rcases mem_processes_twoQueued p hp with rfl | rfl <;> decide
    · rcases mem_processes_twoQueued p hp with rfl | rfl <;>
        rcases mem_processes_twoQueued q hq with rfl | rfl <;> first | rfl | exact absurd hpid (by decide)
  have hiff := (procfs_status_faithful twoQueued twoQueued hidentified hidentified 0x1000 0x2000 h1 h2).1
  exact fun heq => absurd (hiff.mp heq).2.1 (by decide)

end AcornOS
