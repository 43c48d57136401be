/-
# procFS (`file_system/procfs/procfs.c`)

`/process` has two files of its own, and a directory for each process, named by its PID in decimal.

* `procfs_readdir` PRINTS the PID: digits into a temporary buffer, turned round.  That is the same printer
  as in the kernel's formatter, so a name is the numeral of the PID (`pidText_eq`).
* `procfs_lookup` READS it: multiply by ten and add, modulo `2 ^ 64`, as long as there are digits.  It does
  not ask whether there were any, whether the first is a 0, or whether the number was too large.  The
  lookup of `OpenClose.lean`, which makes the inode, makes the one that is found here
  (`vfsProcfsLookup_eq`).
* **`procfsLookup_exact_iff`**: so a name finds a process just if `procfs_readdir` prints that name for it,
  unless the name is another spelling of the PID of some process: empty, with a leading zero, or too large.
-/
import AcornOS.Core.Kprintf
import AcornOS.FileSystem.OpenClose
import AcornOS.Processes.Fairness

namespace AcornOS

open Lib

/-! ## 1. The code -/

/-- `*p >= '0' && *p <= '9'` -/
def IsDigit (c : BitVec 8) : Prop := 0x30 ≤ c ∧ c ≤ 0x39

instance (c : BitVec 8) : Decidable (IsDigit c) := inferInstanceAs (Decidable (_ ∧ _))

/-- `*p - '0'` -/
def digitValue (c : BitVec 8) : Nat := c.toNat - 0x30

/-- The loop that reads a PID: the number, and what is left of the name. -/
def parsePid : (pid : Nat) → CString → Nat × CString
  | pid, [] => (pid, [])
  | pid, c :: p => if IsDigit c then parsePid ((pid * 10 + digitValue c) % 2 ^ 64) p else (pid, c :: p)

/-- `procfs_lookup`: the type of the inode it creates, and its private data. -/
def procfsLookup (s : Kernel) (dir : ProcfsInode) (name : CString) : Option (VfsType × ProcfsInode) :=
  match dir.type with
  | .root =>
    if name = Vfs.meminfo then some (.file, ⟨.infoFile, 0, Vfs.meminfo⟩)
    else if name = Vfs.mounts then some (.file, ⟨.infoFile, 0, Vfs.mounts⟩)
    else
      let (pid, rest) := parsePid 0 name
      if rest ≠ [] then none
      else
        match s.findSlot fun p => p ≠ 0 && (s.pcb p).pid == pid with
        | some _ => some (.dir, ⟨.pidDir, pid, name⟩)
        | none => none
  | .pidDir =>
    if name = Vfs.status then some (.file, ⟨.pidFile, dir.pid, Vfs.status⟩)
    else if name = Vfs.memory then some (.file, ⟨.pidFile, dir.pid, Vfs.memory⟩)
    else if name = Vfs.files then some (.file, ⟨.pidFile, dir.pid, Vfs.files⟩)
    else none
  | _ => none

/-- The name that `procfs_readdir` prints for a PID, with 20 characters in `temp`. -/
def pidText (pid : Nat) : Printed := toDec 20 (BitVec.ofNat 64 pid)

/-- The walk of `procfs_readdir` along the table: the process number `pidIndex`, counted from `found`. -/
def pidAt (s : Kernel) (pidIndex : Nat) : (slots : List Nat) → (found : Nat) → Option Nat
  | [], _ => none
  | i :: slots, found =>
    if s.processTable i = 0 then pidAt s pidIndex slots found
    else if found = pidIndex then some (s.processTable i)
    else pidAt s pidIndex slots (found + 1)

/-- `pid_files` -/
def pidFiles : List (Option CString) := [some Vfs.status, some Vfs.memory, some Vfs.files, none]

/-- `procfs_readdir` on an open directory: what it puts into the caller's `dentry`, or `none` at the end. -/
def procfsReaddir (s : Kernel) (node : ProcfsInode) (file : File) (dentry : Dentry) :
    Except Fault (Option Dentry × File) :=
  let entry (name : CString) (type : VfsType) : Option Dentry × File :=
    (some { dentry with name := name, type := type }, { file with position := add32 file.position 1 })
  match node.type with
  | .root =>
    if file.position = 0 then .ok (entry (kstrcpy Vfs.meminfo vfsMaxName) .file)
    else if file.position = 1 then .ok (entry (kstrcpy Vfs.mounts vfsMaxName) .file)
    else
      match pidAt s (sub32 file.position 2) (List.range maxProcesses) 0 with
      | some p =>
        let name := pidText (s.pcb p).pid
        if name.overrun ∨ vfsMaxName ≤ name.chars.length then .error .overrun
        else .ok (entry name.chars .dir)
      | none => .ok (none, file)
  | .pidDir =>
    match pidFiles[file.position]? with
    | none => .error .overrun
    | some none => .ok (none, file)
    | some (some name) => .ok (entry (kstrcpy name vfsMaxName) .file)
  | _ => .ok (none, file)

/-! ## 2. Names -/

/-- The PIDs fit their type. -/
def Kernel.PidsFit (s : Kernel) : Prop := ∀ p ∈ s.processes, (s.pcb p).pid < 2 ^ 64

/-- **A name finds a process just if it is the process's**: on the root, a directory for the PID of a
process is what is found under the name that `procfs_readdir` prints for it, and under no other. -/
def NamesExactly (s : Kernel) (root : ProcfsInode) (name : CString) : Prop :=
  ∀ p ∈ s.processes, (∃ node, procfsLookup s root name = some (.dir, node) ∧ node.type = .pidDir ∧
    node.pid = (s.pcb p).pid) ↔ name = (pidText (s.pcb p).pid).chars

/-- A numeral of a PID: digits, at least one, no 0 in front of others, and fewer than `2 ^ 64`. -/
def IsNumeral (name : CString) : Prop :=
  Canonical decDigit digitValue 10 name ∧ readNumeral digitValue 10 name < 2 ^ 64

section Names

variable {s : Kernel} {root : ProcfsInode} {name : CString} {p pid : Nat}

theorem digitValue_decDigit : ∀ d < 10, digitValue (decDigit d) = d ∧ IsDigit (decDigit d) := by decide

theorem pidText_eq (h : pid < 2 ^ 64) : pidText pid = ⟨numeral decDigit 10 pid, false⟩ := by
  rw [pidText, toDec_eq _ (by decide), BitVec.toNat_ofNat, Nat.mod_eq_of_lt h]

/-- A numeral is made of digits. -/
theorem isDigit_of_mem_numeral {n : Nat} {c : BitVec 8} (h : c ∈ numeral decDigit 10 n) : IsDigit c := by
  obtain ⟨d, hd, rfl⟩ := mem_numeral decDigit (by decide) h
  exact (digitValue_decDigit d hd).2

theorem readNumeral_pid (n : Nat) : readNumeral digitValue 10 (numeral decDigit 10 n) = n :=
  readNumeral_numeral decDigit (by decide) (fun d hd => (digitValue_decDigit d hd).1) n

/-- **Digits are read**, modulo `2 ^ 64`. -/
theorem parsePid_fold (h : ∀ c ∈ name, IsDigit c) (pid : Nat) : parsePid pid name =
    (name.foldl (fun pid c => (pid * 10 + digitValue c) % 2 ^ 64) pid, []) := by
  induction name generalizing pid with
  | nil => rfl
  | cons c name ih =>
    rw [parsePid, if_pos (h c List.mem_cons_self), ih fun x hx => h x (List.mem_cons_of_mem c hx)]
    rfl

/-- Taking the rest each time is taking it at the end. -/
theorem foldl_mod (name : CString) {m n : Nat} (hmn : m % 2 ^ 64 = n % 2 ^ 64) :
    name.foldl (fun pid c => (pid * 10 + digitValue c) % 2 ^ 64) m % 2 ^ 64 =
      readFrom digitValue 10 n name % 2 ^ 64 := by
  induction name generalizing m n with
  | nil => exact hmn
  | cons c name ih =>
    refine @ih ((m * 10 + digitValue c) % 2 ^ 64) (n * 10 + digitValue c) ?_
    rw [Nat.mod_mod, Nat.add_mod, Nat.mul_mod, hmn, ← Nat.mul_mod, ← Nat.add_mod]

theorem foldl_lt (name : CString) {pid : Nat} (hpid : pid < 2 ^ 64) :
    name.foldl (fun pid c => (pid * 10 + digitValue c) % 2 ^ 64) pid < 2 ^ 64 := by
  induction name generalizing pid with
  | nil => exact hpid
  | cons c name ih => exact ih (Nat.mod_lt _ (Nat.two_pow_pos 64))

theorem parsePid_digits (h : ∀ c ∈ name, IsDigit c) :
    parsePid 0 name = (readNumeral digitValue 10 name % 2 ^ 64, []) := by
  rw [parsePid_fold h, readNumeral, ← foldl_mod name rfl,
    Nat.mod_eq_of_lt (foldl_lt name (Nat.two_pow_pos 64))]

/-- Another character stops the reading before the end. -/
theorem parsePid_stops {c : BitVec 8} (hc : c ∈ name) (hdigit : ¬ IsDigit c) (pid : Nat) :
    (parsePid pid name).2 ≠ [] := by
  induction name generalizing pid with
  | nil => cases hc
  | cons x name ih =>
    rw [parsePid]
    split
    · rename_i hx
      rcases List.mem_cons.mp hc with rfl | hc
      · exact absurd hx hdigit
      · exact ih hc _
    · exact List.cons_ne_nil _ _

/-- The loop along the table finds a PID just if a process has it. -/
theorem findSlot_pid_eq_none_iff : (s.findSlot fun p => p ≠ 0 && (s.pcb p).pid == pid) = none ↔
    ∀ p ∈ s.processes, (s.pcb p).pid ≠ pid := by
  cases hslot : s.findSlot fun p => p ≠ 0 && (s.pcb p).pid == pid with
  | some i =>
    obtain ⟨hi, htest⟩ := findSlot_eq_some hslot
    rw [Bool.and_eq_true, decide_eq_true_eq, beq_iff_eq] at htest
    exact iff_of_false nofun fun h => h _ (mem_processes hi htest.1) htest.2
  | none =>
    refine iff_of_true rfl ?_
    rintro p ⟨hne, i, hi, rfl⟩ hpid
    have hnone := findSlot_eq_none hslot hi
    rw [hpid] at hnone
    simp [hne] at hnone

theorem all_isDigit_iff (name : CString) :
    (name.all fun c => 0x30 ≤ c && c ≤ 0x39) = true ↔ ∀ c ∈ name, IsDigit c := by
  simp only [List.all_eq_true, Bool.and_eq_true, decide_eq_true_eq, IsDigit]

/-- Reading a PID and asking whether something is left is reading a name of digits. -/
theorem vfsParsePid_eq (name : CString) : Vfs.parsePid name =
    if (parsePid 0 name).2 ≠ [] then none else some (parsePid 0 name).1 := by
  by_cases h : ∀ c ∈ name, IsDigit c
  · rw [Vfs.parsePid, if_pos ((all_isDigit_iff name).mpr h), parsePid_fold h, if_neg (not_not.mpr rfl)]
    rfl
  · rw [Vfs.parsePid, if_neg (mt (all_isDigit_iff name).mp h)]
    push Not at h
    obtain ⟨c, hc, hdigit⟩ := h
    rw [if_pos (parsePid_stops hc hdigit 0)]

/-- **What is found under digits**: a directory for the number they stand for, modulo `2 ^ 64`, if it is the
PID of a process. -/
theorem procfsLookup_digits (hroot : root.type = .root) (h : ∀ c ∈ name, IsDigit c)
    (found : VfsType × ProcfsInode) : procfsLookup s root name = some found ↔
      found = (.dir, ⟨.pidDir, readNumeral digitValue 10 name % 2 ^ 64, name⟩) ∧
        ∃ p ∈ s.processes, (s.pcb p).pid = readNumeral digitValue 10 name % 2 ^ 64 := by
  have hmeminfo : name ≠ Vfs.meminfo := by
    rintro rfl
    exact absurd (h 0x6D (by decide)) (by decide)
  have hmounts : name ≠ Vfs.mounts := by
    rintro rfl
    exact absurd (h 0x6D (by decide)) (by decide)
  have hparse := parsePid_digits h
  rw [procfsLookup, hroot]
  simp only [if_neg hmeminfo, if_neg hmounts, hparse, ne_eq, not_true_eq_false, if_false]
  generalize readNumeral digitValue 10 name % 2 ^ 64 = pid
  by_cases hnone : ∀ p ∈ s.processes, (s.pcb p).pid ≠ pid
  · rw [findSlot_pid_eq_none_iff.mpr hnone]
    refine iff_of_false nofun ?_
    rintro ⟨-, p, hp, hpid⟩
    exact hnone p hp hpid
  · obtain ⟨i, hi⟩ := Option.ne_none_iff_exists'.mp (mt findSlot_pid_eq_none_iff.mp hnone)
    push Not at hnone
    rw [hi, Option.some.injEq]
    exact ⟨fun h => ⟨h.symm, hnone⟩, fun h => h.1.symm⟩

/-- The directory of a process is found under digits exactly if they stand for its PID modulo `2 ^ 64`. -/
theorem procfsLookup_digits_pid (hroot : root.type = .root) (h : ∀ c ∈ name, IsDigit c)
    {p : Nat} (hp : p ∈ s.processes) : (∃ node, procfsLookup s root name = some (.dir, node) ∧
      node.type = .pidDir ∧ node.pid = (s.pcb p).pid) ↔
        (s.pcb p).pid = readNumeral digitValue 10 name % 2 ^ 64 := by
  constructor
  · rintro ⟨node, hnode, -, hpid⟩
    cases ((procfsLookup_digits hroot h _).mp hnode).1
    exact hpid.symm
  · intro hpid
    exact ⟨_, (procfsLookup_digits hroot h _).mpr ⟨rfl, p, hp, hpid⟩, rfl, hpid.symm⟩

theorem procfsLookup_not_dir (hroot : root.type = .root) {c : BitVec 8} (hc : c ∈ name)
    (hdigit : ¬ IsDigit c) (node : ProcfsInode) : procfsLookup s root name ≠ some (.dir, node) := by
  have hstop := parsePid_stops hc hdigit 0
  rw [procfsLookup, hroot]
  dsimp only
  rw [if_pos hstop]
  split
  · exact nofun
  · split
    · exact nofun
    · exact nofun

/-- The numerals are the strings of digits that are not empty, begin with 0 only if that is all, and do not
stand for too large a number. -/
theorem isNumeral_iff : IsNumeral name ↔ ∃ n < 2 ^ 64, name = numeral decDigit 10 n := by
  constructor
  · rintro ⟨hcanonical, hlt⟩
    exact ⟨_, hlt, (numeral_readNumeral decDigit (by decide) hcanonical).symm⟩
  · rintro ⟨n, hn, rfl⟩
    refine ⟨numeral_canonical decDigit (by decide) (fun d hd => (digitValue_decDigit d hd).1) n, ?_⟩
    rwa [readNumeral_pid]

/-- **When a name is exact**: it has a character that is no digit; or it is a numeral; or no process has the
PID that it stands for modulo `2 ^ 64`. -/
theorem procfsLookup_exact_iff (s : Kernel) (hfit : s.PidsFit) (root : ProcfsInode)
    (hroot : root.type = .root) (name : CString) : NamesExactly s root name ↔
      (∃ c ∈ name, ¬ IsDigit c) ∨ IsNumeral name ∨
        ∀ p ∈ s.processes, (s.pcb p).pid ≠ readNumeral digitValue 10 name % 2 ^ 64 := by
  by_cases hdigits : ∀ c ∈ name, IsDigit c
  · rw [or_iff_right (fun ⟨c, hc, hnot⟩ => hnot (hdigits c hc))]
    constructor
    · intro h
      by_contra hnot
      rw [not_or] at hnot
      obtain ⟨hother, hsome⟩ := hnot
      push Not at hsome
      obtain ⟨p, hp, hpid⟩ := hsome
      have hname := (h p hp).mp ((procfsLookup_digits_pid hroot hdigits hp).mpr hpid)
      rw [pidText_eq (hfit p hp)] at hname
      exact hother (isNumeral_iff.mpr ⟨(s.pcb p).pid, hfit p hp, hname⟩)
    · intro h p hp
      rw [procfsLookup_digits_pid hroot hdigits hp, pidText_eq (hfit p hp)]
      constructor
      · intro hpid
        rcases h with hnumeral | hnone
        · obtain ⟨n, hn, rfl⟩ := isNumeral_iff.mp hnumeral
          rw [readNumeral_pid, Nat.mod_eq_of_lt hn] at hpid
          rw [hpid]
        · exact absurd hpid (hnone p hp)
      · intro hname
        rw [hname, readNumeral_pid, Nat.mod_eq_of_lt (hfit p hp)]
  · push Not at hdigits
    obtain ⟨c, hc, hnot⟩ := hdigits
    refine iff_of_true (fun p hp => ?_) (.inl ⟨c, hc, hnot⟩)
    rw [pidText_eq (hfit p hp)]
    refine iff_of_false ?_ fun hname => hnot (isDigit_of_mem_numeral (hname ▸ hc))
    rintro ⟨node, hnode, -⟩
    exact procfsLookup_not_dir hroot hc hnot node hnode

end Names

/-- The root of procFS. -/
def procfsRoot : ProcfsInode := ⟨.root, 0, [0x70, 0x72, 0x6F, 0x63, 0x65, 0x73, 0x73]⟩

theorem twoQueued_pidsFit : twoQueued.PidsFit := by
  intro p _
  change (if p = 0x1000 then queuedPcb 1 .running 0x2000 else queuedPcb 2 .ready 0x1000).pid < 2 ^ 64
  split <;> decide

/-- `2` finds the process 2 and no other. -/
theorem procfsLookup_exact_two : NamesExactly twoQueued procfsRoot [0x32] :=
  (procfsLookup_exact_iff twoQueued twoQueued_pidsFit procfsRoot rfl [0x32]).mpr
    (.inr (.inl (isNumeral_iff.mpr ⟨2, by decide, by decide +kernel⟩)))

/-- `01` -/
def leadingZero : CString := [0x30, 0x31]

/-- `18446744073709551617`, which is `2 ^ 64 + 1` -/
def wrapped : CString := numeral decDigit 10 (2 ^ 64 + 1)

/-- **Other spellings**: both find the process 1, which is listed as `1`. -/
theorem other_spellings_find_process : twoQueued.PidsFit ∧ 0x1000 ∈ twoQueued.processes ∧
    (twoQueued.pcb 0x1000).pid = 1 ∧ (pidText 1).chars = [0x31] ∧
    ∀ name ∈ [leadingZero, wrapped],
      procfsLookup twoQueued procfsRoot name = some (.dir, ⟨.pidDir, 1, name⟩) ∧
        ¬ NamesExactly twoQueued procfsRoot name := by
  have hmem : 0x1000 ∈ twoQueued.processes := ⟨by decide, 0, by decide, rfl⟩
  have hfound : ∀ name ∈ [leadingZero, wrapped],
      procfsLookup twoQueued procfsRoot name = some (.dir, ⟨.pidDir, 1, name⟩) := by
    decide +kernel
  have htext : (pidText 1).chars = [0x31] := by decide +kernel
  have hother : ∀ name ∈ [leadingZero, wrapped], name ≠ [0x31] := by decide +kernel
  refine ⟨twoQueued_pidsFit, hmem, rfl, htext, fun name hname => ⟨hfound name hname, fun h => ?_⟩⟩
  have heq : name = (pidText 1).chars := (h 0x1000 hmem).mp ⟨_, hfound name hname, rfl, rfl⟩
  exact hother name hname (heq.trans htext)

/-! ## 3. What is listed -/

/-- The PCBs, in the order of the table. -/
def Kernel.listed (s : Kernel) : List Nat :=
  ((List.range maxProcesses).map s.processTable).filter (· ≠ 0)

section Listed

variable {s : Kernel} {p : Nat}

theorem mem_listed : p ∈ s.listed ↔ p ∈ s.processes := by
  rw [Kernel.listed, List.mem_filter, List.mem_map, decide_eq_true_eq, and_comm]
  refine and_congr_right fun _ => exists_congr fun i => ?_
  rw [List.mem_range]

theorem length_listed_le (s : Kernel) : s.listed.length ≤ maxProcesses :=
  (List.length_filter_le _ _).trans (by rw [List.length_map, List.length_range])

/-- The walk counts the entries of the table that are not NULL. -/
theorem pidAt_eq {pidIndex : Nat} (slots : List Nat) {found : Nat} (h : found ≤ pidIndex) :
    pidAt s pidIndex slots found = ((slots.map s.processTable).filter (· ≠ 0))[pidIndex - found]? := by
  induction slots generalizing found with
  | nil => rfl
  | cons i slots ih =>
    rw [pidAt, List.map_cons]
    by_cases hzero : s.processTable i = 0
    · rw [if_pos hzero, ih h, List.filter_cons_of_neg (by simpa using hzero)]
    · rw [if_neg hzero, List.filter_cons_of_pos (by simpa using hzero)]
      by_cases hhere : found = pidIndex
      · rw [if_pos hhere, hhere, Nat.sub_self, List.getElem?_cons_zero]
      · have hlt : found < pidIndex := lt_of_le_of_ne h hhere
        have hsucc : pidIndex - found = pidIndex - (found + 1) + 1 := by omega
        rw [if_neg hhere, ih hlt, hsucc, List.getElem?_cons_succ]

theorem pidAt_listed (s : Kernel) (k : Nat) : pidAt s k (List.range maxProcesses) 0 = s.listed[k]? :=
  pidAt_eq _ (Nat.zero_le k)

/-- The lookup that makes an inode makes the one that is found here. -/
theorem vfsProcfsLookup_eq {v : Vfs} (hpids : v.pids = s.listed.map fun p => (s.pcb p).pid)
    (dir : ProcfsInode) (name : CString) : v.procfsLookup dir name =
      match procfsLookup s dir name with
      | some (_, node) => v.procfsCreateInode node
      | none => .ok (none, v) := by
  rw [Vfs.procfsLookup, procfsLookup]
  cases dir.type with
  | root =>
    dsimp only
    rw [vfsParsePid_eq]
    split_ifs
    · rfl
    · rfl
    · rfl
    · dsimp only
      generalize (parsePid 0 name).1 = pid
      have hmem : pid ∈ v.pids ↔ ∃ p ∈ s.processes, (s.pcb p).pid = pid := by
        rw [hpids, List.mem_map]
        simp only [mem_listed]
      by_cases hnone : ∀ p ∈ s.processes, (s.pcb p).pid ≠ pid
      · rw [findSlot_pid_eq_none_iff.mpr hnone, if_neg fun h => ?_]
        obtain ⟨p, hp, hpid⟩ := hmem.mp h
        exact hnone p hp hpid
      · obtain ⟨i, hi⟩ := Option.ne_none_iff_exists'.mp (mt findSlot_pid_eq_none_iff.mp hnone)
        push Not at hnone
        rw [hi, if_pos (hmem.mpr hnone)]
  | pidDir =>
    dsimp only
    split_ifs <;> rfl
  | pidFile => rfl
  | infoFile => rfl

/-- **Every listed PID resolves back.** -/
theorem procfsLookup_listed {root : ProcfsInode} (hroot : root.type = .root) (hfit : s.PidsFit)
    (hp : p ∈ s.listed) : procfsLookup s root (pidText (s.pcb p).pid).chars =
      some (.dir, ⟨.pidDir, (s.pcb p).pid, (pidText (s.pcb p).pid).chars⟩) := by
  have hmem := mem_listed.mp hp
  have hlt := hfit p hmem
  have hread : (s.pcb p).pid = readNumeral digitValue 10 (numeral decDigit 10 (s.pcb p).pid) % 2 ^ 64 := by
    rw [readNumeral_pid, Nat.mod_eq_of_lt hlt]
  rw [pidText_eq hlt]
  refine (procfsLookup_digits hroot (fun c hc => isDigit_of_mem_numeral hc) _).mpr ⟨?_, p, hmem, hread⟩
  rw [← hread]

end Listed

end AcornOS
