/-
# Short writes (`fwrite` and `fclose`)

`write()` may take FEWER bytes than it is given: `shadowfs_write` does, when the quota runs out.  `fwrite`
and `fclose` compare its result with 0 only, and empty the buffer whatever it took.

* The functions of a stream are stated here over ANY descriptor (`Device`), of which the file system is
  one (`fsDevice_fwrite`, `fsDevice_fclose`).
* A `Sink` is a descriptor that does what the contract of `write()` allows and nothing else: call `k`
  fails, or takes the first bytes of what it is given, as many as `answer k` says.
* Bytes reach `write()` in chunks of 512 and a last one, so it is settled beforehand WHICH bytes call `k`
  is given.  **`buffered_writes_lossless_iff`**: nothing is lost silently exactly when some call is seen to
  fail, or no call takes less than its chunk.
-/
import AcornOS.Libc.Stdio

namespace AcornOS

open Lib

/-! ## 1. Streams over any descriptor -/

/-- What the functions of a stream need of its descriptor. -/
structure Device (σ : Type) where
  write : σ → Int → List (BitVec 8) → Except Fault (Int × σ)
  close : σ → Int → Except Fault (Int × σ)

namespace Device

variable {σ : Type} (d : Device σ)

/-- `fcloseFlush` -/
def fcloseFlush (s : σ) (f : FILE) : Except Fault (Int × σ) :=
  if f.isWrite ∧ f.bufPos > 0 then d.write s f.fd (f.buf.take f.bufPos) else .ok (0, s)

/-- `fclose` -/
def fclose (s : σ) (f : FILE) : Except Fault (Int × σ) := do
  let (flushed, s) ← d.fcloseFlush s f
  let (closed, s) ← d.close s f.fd
  .ok (if flushed < 0 ∨ closed < 0 then -1 else 0, s)

/-- `fwriteFlush` -/
def fwriteFlush (s : σ) (f : FILE) : Except Fault (Int × FILE × σ) :=
  if f.bufPos ≥ f.bufSize then do
    let (n, s) ← d.write s f.fd (f.buf.take f.bufPos)
    .ok (n, if n < 0 then f else { f with bufPos := 0 }, s)
  else .ok (0, f, s)

/-- `fwriteLoop` -/
def fwriteLoop : Nat → σ → FILE → List (BitVec 8) → Nat → Except Fault (Nat × FILE × σ)
  | 0, s, f, _, written => .ok (written, f, s)
  | fuel + 1, s, f, src, written =>
    if src = [] then .ok (written, f, s)
    else do
      let (n, f, s) ← d.fwriteFlush s f
      if n < 0 then .ok (written, f, s)
      else
        let space := f.bufSize - f.bufPos
        let chunk := min space src.length
        let f := { f with
          buf := overwrite f.buf f.bufPos (src.take chunk)
          bufPos := f.bufPos + chunk }
        fwriteLoop fuel s f (src.drop chunk) (written + chunk)

/-- `fwrite` -/
def fwrite (s : σ) (ptr : List (BitVec 8)) (size nmemb : Nat) (f : FILE) :
    Except Fault (Nat × FILE × σ) :=
  if ¬ f.isWrite ∨ size = 0 ∨ nmemb = 0 then .ok (0, f, s)
  else do
    let total := size * nmemb % 2 ^ 64
    let (written, f, s) ← d.fwriteLoop total s f (ptr.take total) 0
    .ok (written / size, f, s)

/-- Calls of `fwrite`, one after another, and what each returned. -/
def fwriteAll : List FwriteArgs → σ → FILE → Except Fault (List Nat × FILE × σ)
  | [], s, f => .ok ([], f, s)
  | w :: ws, s, f => do
    let (n, f, s) ← d.fwrite s w.data w.size w.nmemb f
    (fwriteAll ws s f).map fun (ns, f, s) => (n :: ns, f, s)

/-- The calls of `fwrite`, and then `fclose`: what they returned. -/
def writeStream (ws : List FwriteArgs) (s : σ) (f : FILE) : Except Fault (List Nat × Int × σ) := do
  let (ns, f, s) ← d.fwriteAll ws s f
  (d.fclose s f).map fun (r, s) => (ns, r, s)

end Device

/-- The descriptors of the file system. -/
def fsDevice : Device FileSystem := ⟨sysWrite, vfsClose⟩

theorem fsDevice_fwriteLoop (fuel : Nat) (fs : FileSystem) (f : FILE) (src : List (BitVec 8))
    (written : Nat) : fsDevice.fwriteLoop fuel fs f src written = fwriteLoop fuel fs f src written := by
  induction fuel generalizing fs f src written with
  | zero => rfl
  | succ fuel ih =>
    simp only [Device.fwriteLoop, fwriteLoop, ih]
    rfl

theorem fsDevice_fwrite (fs : FileSystem) (ptr : List (BitVec 8)) (size nmemb : Nat) (f : FILE) :
    fsDevice.fwrite fs ptr size nmemb f = fwrite fs ptr size nmemb f := by
  simp only [Device.fwrite, fwrite, fsDevice_fwriteLoop]

theorem fsDevice_fclose (fs : FileSystem) (f : FILE) : fsDevice.fclose fs f = fclose fs f := rfl

/-! ## 2. The contract of `write()` -/

/-- A descriptor of which nothing is known but the contract.  Call `k` of `write()` returns -1 where
`answer k` is `none`, and else takes that many of the bytes it is given, or all of them. -/
structure Sink where
  answer : Nat → Option Nat
  closes : Bool
  calls : Nat
  accepted : List (BitVec 8)

/-- After a call that took the first `n` of these bytes. -/
def Sink.took (s : Sink) (n : Nat) (bytes : List (BitVec 8)) : Sink :=
  { s with calls := s.calls + 1, accepted := s.accepted ++ bytes.take n }

@[simp] theorem Sink.took_answer (s : Sink) (n : Nat) (bytes : List (BitVec 8)) :
    (s.took n bytes).answer = s.answer := rfl

@[simp] theorem Sink.took_calls (s : Sink) (n : Nat) (bytes : List (BitVec 8)) :
    (s.took n bytes).calls = s.calls + 1 := rfl

@[simp] theorem Sink.took_accepted (s : Sink) (n : Nat) (bytes : List (BitVec 8)) :
    (s.took n bytes).accepted = s.accepted ++ bytes.take n := rfl

/-- A call of `write()`. -/
def Sink.write (s : Sink) (_ : Int) (bytes : List (BitVec 8)) : Except Fault (Int × Sink) :=
  match s.answer s.calls with
  | none => .ok (-1, { s with calls := s.calls + 1 })
  | some n => .ok (((min n bytes.length : Nat) : Int), s.took n bytes)

/-- A call of `close()`. -/
def Sink.close (s : Sink) (_ : Int) : Except Fault (Int × Sink) := .ok (if s.closes then 0 else -1, s)

def sinkDevice : Device Sink := ⟨Sink.write, Sink.close⟩

theorem Sink.write_none {s : Sink} {fd : Int} {bytes : List (BitVec 8)} (h : s.answer s.calls = none) :
    sinkDevice.write s fd bytes = .ok (-1, { s with calls := s.calls + 1 }) := by
  simp only [sinkDevice, Sink.write, h]

theorem Sink.write_some {s : Sink} {fd : Int} {bytes : List (BitVec 8)} {n : Nat}
    (h : s.answer s.calls = some n) :
    sinkDevice.write s fd bytes = .ok (((min n bytes.length : Nat) : Int), s.took n bytes) := by
  simp only [sinkDevice, Sink.write, h]

theorem Sink.write_ok (s : Sink) (fd : Int) (bytes : List (BitVec 8)) :
    ∃ n s', sinkDevice.write s fd bytes = .ok (n, s') := by
  cases h : s.answer s.calls with
  | none => exact ⟨_, _, Sink.write_none h⟩
  | some n => exact ⟨_, _, Sink.write_some h⟩

/-- A descriptor that has just been opened. -/
def newSink (answer : Nat → Option Nat) (closes : Bool) : Sink := ⟨answer, closes, 0, []⟩

/-- **What is lost is seen.**  Where every `fwrite` returns its `nmemb` and `fclose` returns 0, the
descriptor has taken all that was written. -/
def LosesNothing (answer : Nat → Option Nat) (closes : Bool) (f : FILE) (ws : List FwriteArgs) : Prop :=
  ∃ ns r s, sinkDevice.writeStream ws (newSink answer closes) f = .ok (ns, r, s) ∧
    (ns = ws.map FwriteArgs.nmemb ∧ r = 0 → s.accepted = dataOf ws)

/-- `sys_write` on a file keeps the contract: it takes the first bytes, as many as it returns. -/
theorem sysWrite_takes {fs : FileSystem} {path : CString} {a : Nat} {fd : Int} {g : File}
    {bytes : List (BitVec 8)} (h : Opened fs path a fd g) (hmode : g.flags ≠ oRdonly)
    (hpos : g.position < 2 ^ 32) (hlen : bytes.length ≤ fileBufSize) :
    ∃ (k : Nat) (fs' : FileSystem), k ≤ bytes.length ∧ sysWrite fs fd bytes = .ok ((k : Int), fs') ∧
      bytesOf (fs'.blocksOf a) = bytesOf (fs.blocksOf a) ++ bytes.take k := by
  have hsmall : fileBufSize = 512 := rfl
  obtain rfl := h.inode
  obtain ⟨n, hn⟩ := h.ok.fileAt h.file
  obtain ⟨k, blocks', used', hk, heq, hbytes, -⟩ :=
    vfsWrite_file h.ok hn h.opened hmode hpos (show bytes.length < 2 ^ 32 by omega)
  have hmod : bytes.length % 2 ^ 32 = bytes.length := Nat.mod_eq_of_lt (by omega)
  refine ⟨k, (fs.rewritten g.inode n blocks' used').setFile fd.toNat
    (some { g with position := add32 g.position k }), hk, ?_, ?_⟩
  · rw [sysWrite, hmod, List.take_length, if_neg (by omega), heq, toInt32_natCast (by omega)]
  · change bytesOf ((fs.rewritten g.inode n blocks' used').blocksOf g.inode) = _
    rw [FileSystem.blocksOf_rewritten_self, hbytes]

/-! ## 3. What has been handed over -/

/-- Of `total` bytes, those that call `k` of `write()` is given. -/
def chunkSize (total k : Nat) : Nat := min fileBufSize (total - fileBufSize * k)

/-- The first `calls` calls of `write()` took all they were given. -/
def TakesAll (answer : Nat → Option Nat) (total calls : Nat) : Prop :=
  ∀ k < calls, ∀ n, answer k = some n → chunkSize total k ≤ n

/-- Calls of `write()` have been given the bytes `x`, in chunks, and none has failed. -/
structure Handed (s : Sink) (x : List (BitVec 8)) : Prop where
  answered : ∀ k < s.calls, s.answer k ≠ none
  calls : x.length ≤ fileBufSize * s.calls
  full : ∀ k < s.calls, fileBufSize * k < x.length
  le : s.accepted.length ≤ x.length
  eq_iff : s.accepted = x ↔ TakesAll s.answer x.length s.calls

section Handed

variable {s : Sink} {x bytes : List (BitVec 8)} {f : FILE} {fd : Int}

theorem newSink_handed (answer : Nat → Option Nat) (closes : Bool) : Handed (newSink answer closes) [] :=
  ⟨nofun, Nat.zero_le _, nofun, le_rfl, iff_of_true rfl nofun⟩

/-- What `accepted` becomes is all there is, only if it was and the call takes all of its bytes. -/
theorem append_take_eq {y x bytes : List (BitVec 8)} {n : Nat} (hle : y.length ≤ x.length) :
    y ++ bytes.take n = x ++ bytes ↔ y = x ∧ bytes.length ≤ n := by
  constructor
  · intro h
    have hlen := congrArg List.length h
    rw [List.length_append, List.length_append, List.length_take] at hlen
    obtain ⟨hyx, htake⟩ := List.append_inj h (by omega)
    exact ⟨hyx, List.take_eq_self_iff _ |>.mp htake⟩
  · rintro ⟨rfl, hn⟩
    rw [List.take_of_length_le hn]

/-- The chunks of what came before are full ones, and stay so. -/
theorem chunkSize_append {total n k : Nat} (h : fileBufSize * (k + 1) ≤ total) :
    chunkSize (total + n) k = chunkSize total k := by
  rw [Nat.mul_succ] at h
  unfold chunkSize
  omega

/-- One more call: the last chunk is not a full one. -/
theorem takesAll_succ {answer : Nat → Option Nat} {calls n : Nat} (hn : n ≤ fileBufSize) :
    TakesAll answer (fileBufSize * calls + n) (calls + 1) ↔
      TakesAll answer (fileBufSize * calls) calls ∧ ∀ m, answer calls = some m → n ≤ m := by
  have hbefore : ∀ k < calls, chunkSize (fileBufSize * calls + n) k = chunkSize (fileBufSize * calls) k :=
    fun k hk => chunkSize_append (Nat.mul_le_mul_left _ hk)
  have hlast : chunkSize (fileBufSize * calls + n) calls = n := by
    rw [chunkSize, Nat.add_sub_cancel_left]
    exact Nat.min_eq_right hn
  constructor
  · intro hall
    refine ⟨fun k hk m hm => ?_, fun m hm => ?_⟩
    · rw [← hbefore k hk]
      exact hall k (Nat.lt_succ_of_lt hk) m hm
    · rw [← hlast]
      exact hall calls (Nat.lt_succ_self _) m hm
  · rintro ⟨hall, hm⟩ k hk m hkm
    rcases Nat.lt_succ_iff_lt_or_eq.mp hk with hlt | rfl
    · rw [hbefore k hlt]
      exact hall k hlt m hkm
    · rw [hlast]
      exact hm m hkm

/-- **A call.**  All before it were full; it is given the next chunk. -/
theorem Handed.write {n : Nat} (h : Handed s x) (hfull : x.length = fileBufSize * s.calls)
    (hn : s.answer s.calls = some n) (hpos : 0 < bytes.length) (hle : bytes.length ≤ fileBufSize) :
    Handed (s.took n bytes) (x ++ bytes) := by
  refine ⟨fun k hk => ?_, ?_, fun k hk => ?_, ?_, ?_⟩
  · rcases Nat.lt_succ_iff_lt_or_eq.mp hk with hlt | rfl
    · exact h.answered k hlt
    · rw [Sink.took_answer, hn]
      exact nofun
  · rw [List.length_append, Sink.took_calls, Nat.mul_succ, hfull]
    exact Nat.add_le_add_left hle _
  · rw [List.length_append, hfull]
    have hk' := Nat.mul_le_mul_left fileBufSize (Nat.le_of_lt_succ hk)
    exact hk'.trans_lt (Nat.lt_add_of_pos_right hpos)
  · rw [Sink.took_accepted, List.length_append, List.length_append]
    exact Nat.add_le_add h.le (List.length_take_le' n bytes)
  · have honly : (∀ m, s.answer s.calls = some m → bytes.length ≤ m) ↔ bytes.length ≤ n := by
      rw [hn]
      exact ⟨fun h => h n rfl, fun h m hm => Option.some.inj hm ▸ h⟩
    rw [Sink.took_accepted, append_take_eq h.le, h.eq_iff, List.length_append, hfull, ← honly]
    exact (takesAll_succ hle).symm

end Handed

/-! ## 4. What is in the buffer -/

/-- The stream has been given `x`: the chunks that `write()` was given, and what is in the buffer. -/
structure Buffered (s : Sink) (f : FILE) (x : List (BitVec 8)) : Prop where
  isWrite : f.isWrite = true
  size : f.bufSize = fileBufSize
  buf : f.buf.length = fileBufSize
  pos : f.bufPos ≤ fileBufSize
  handed : Handed s (x.take (fileBufSize * s.calls))
  rest : x.drop (fileBufSize * s.calls) = f.buf.take f.bufPos
  length : fileBufSize * s.calls + f.bufPos = x.length

section Buffered

variable {s : Sink} {f : FILE} {x y : List (BitVec 8)} {w : FwriteArgs}

theorem newStream_buffered {answer : Nat → Option Nat} {closes : Bool} (fd : Int)
    {buf : List (BitVec 8)} (hbuf : buf.length = fileBufSize) :
    Buffered (newSink answer closes) (newStream fd true buf) [] :=
  ⟨rfl, rfl, hbuf, Nat.zero_le _, newSink_handed answer closes, rfl, rfl⟩

/-- A call fails among those that the bytes `x` need. -/
def WriteFails (answer : Nat → Option Nat) (total : Nat) : Prop :=
  ∃ k, fileBufSize * k < total ∧ answer k = none

theorem WriteFails.mono {answer : Nat → Option Nat} {m n : Nat} (h : WriteFails answer m) (hle : m ≤ n) :
    WriteFails answer n := by
  obtain ⟨k, hk, hnone⟩ := h
  exact ⟨k, hk.trans_le hle, hnone⟩

/-- What is in the buffer is handed over. -/
theorem Buffered.handOver (h : Buffered s f x) (hpos : 0 < f.bufPos) {n : Nat}
    (hn : s.answer s.calls = some n) :
    Handed (s.took n (f.buf.take f.bufPos)) x := by
  have hbuf := h.buf
  have hle := h.pos
  have hlength := h.length
  have hlen : (f.buf.take f.bufPos).length = f.bufPos := by
    rw [List.length_take]
    omega
  have hfull : (x.take (fileBufSize * s.calls)).length = fileBufSize * s.calls := by
    rw [List.length_take]
    omega
  have hcall := @Handed.write _ _ (f.buf.take f.bufPos) _ h.handed hfull hn (by omega) (by omega)
  rwa [← h.rest, List.take_append_drop, h.rest] at hcall

/-- A full buffer is written out: there is room, or a call has failed. -/
theorem Buffered.makeRoom (h : Buffered s f x) : ∃ n f' s', sinkDevice.fwriteFlush s f = .ok (n, f', s') ∧
    s'.answer = s.answer ∧ s'.closes = s.closes ∧ ((n < 0 ∧ WriteFails s.answer x.length) ∨
      (0 ≤ n ∧ f'.bufPos < fileBufSize ∧ Buffered s' f' x)) := by
  have hlength := h.length
  have hsize := h.size
  have hpos := h.pos
  have hsmall : fileBufSize = 512 := rfl
  unfold Device.fwriteFlush
  split
  · rename_i hfull
    cases hanswer : s.answer s.calls with
    | none =>
      rw [Sink.write_none hanswer]
      exact ⟨-1, f, _, rfl, rfl, rfl, .inl ⟨by decide, s.calls, by omega, hanswer⟩⟩
    | some k =>
      rw [Sink.write_some hanswer]
      generalize min k (f.buf.take f.bufPos).length = m
      have hnonneg : ¬ ((m : Int) < 0) := Int.not_lt.mpr (Int.natCast_nonneg m)
      have hall : x.length = fileBufSize * (s.calls + 1) := by
        rw [Nat.mul_succ]
        omega
      refine ⟨m, { f with bufPos := 0 }, s.took k (f.buf.take f.bufPos), ?_, rfl, rfl,
        .inr ⟨Int.natCast_nonneg m, Nat.zero_lt_succ _, ?_⟩⟩
      · simp only [bind, Except.bind, if_neg hnonneg]
      · refine ⟨h.isWrite, hsize, h.buf, Nat.zero_le _, ?_, ?_, hall.symm⟩
        · rw [Sink.took, List.take_of_length_le hall.le]
          exact h.handOver (by omega) hanswer
        · rw [Sink.took, List.drop_of_length_le hall.le, List.take_zero]
  · rename_i hroom
    exact ⟨0, f, s, rfl, rfl, rfl, .inr ⟨le_rfl, by omega, h⟩⟩

/-- Bytes are put into the buffer. -/
theorem Buffered.store (h : Buffered s f x) (hfit : f.bufPos + y.length ≤ fileBufSize) :
    Buffered s { f with buf := overwrite f.buf f.bufPos y, bufPos := f.bufPos + y.length } (x ++ y) := by
  have hbuf := h.buf
  have hlength := h.length
  have hlen : (f.buf.take f.bufPos ++ y).length = f.bufPos + y.length := by
    rw [List.length_append, List.length_take]
    omega
  refine ⟨h.isWrite, h.size, ?_, hfit, ?_, ?_, ?_⟩
  · rw [length_overwrite (by omega)]
    exact hbuf
  · rw [List.take_append_of_le_length (by omega)]
    exact h.handed
  · rw [overwrite, List.take_left' hlen, List.drop_append_of_le_length (by omega), h.rest]
  · rw [List.length_append, ← hlength]
    exact (Nat.add_assoc _ _ _).symm

/-- **The loop of `fwrite`** takes all of its bytes, or stops at a call that fails. -/
theorem fwriteLoop_sink (fuel : Nat) (s : Sink) (f : FILE) (x src : List (BitVec 8)) (written : Nat)
    (hfuel : src.length ≤ fuel) (h : Buffered s f x) :
    ∃ n f' s', sinkDevice.fwriteLoop fuel s f src written = .ok (n, f', s') ∧ s'.answer = s.answer ∧
      s'.closes = s.closes ∧ ((n = written + src.length ∧ Buffered s' f' (x ++ src)) ∨
        (n < written + src.length ∧ WriteFails s.answer (x ++ src).length)) := by
  induction fuel generalizing s f x src written with
  | zero =>
    obtain rfl : src = [] := List.length_eq_zero_iff.mp (Nat.le_zero.mp hfuel)
    exact ⟨written, f, s, rfl, rfl, rfl, .inl ⟨rfl, by rwa [List.append_nil]⟩⟩
  | succ fuel ih =>
    rw [Device.fwriteLoop]
    by_cases hnil : src = []
    · subst hnil
      exact ⟨written, f, s, rfl, rfl, rfl, .inl ⟨rfl, by rwa [List.append_nil]⟩⟩
    · rw [if_neg hnil]
      have hpos : 0 < src.length := List.length_pos_iff.mpr hnil
      obtain ⟨n, f₁, s₁, heq, hanswer, hcloses, hcase⟩ := h.makeRoom
      rw [heq]
      rcases hcase with ⟨hneg, hfails⟩ | ⟨hn, hroom, h₁⟩
      · refine ⟨written, f₁, s₁, ?_, hanswer, hcloses, .inr ⟨by omega, hfails.mono ?_⟩⟩
        · simp only [bind, Except.bind, if_pos hneg]
        · rw [List.length_append]
          exact Nat.le_add_right _ _
      · have hsize := h₁.size
        generalize hchunk : min (f₁.bufSize - f₁.bufPos) src.length = chunk
        have hlen : (src.take chunk).length = chunk := by
          rw [List.length_take]
          omega
        have hrest : (src.drop chunk).length = src.length - chunk := List.length_drop
        have hstored := h₁.store (y := src.take chunk) (by omega)
        rw [hlen] at hstored
        have hwhole : x ++ src.take chunk ++ src.drop chunk = x ++ src := by
          rw [List.append_assoc, List.take_append_drop]
        obtain ⟨m, f₂, s₂, heq₂, hanswer₂, hcloses₂, hcase₂⟩ :=
          ih s₁ _ _ (src.drop chunk) (written + chunk) (by omega) hstored
        have hsum : written + chunk + (src.drop chunk).length = written + src.length := by omega
        rw [hsum, hwhole, hanswer] at hcase₂
        refine ⟨m, f₂, s₂, ?_, hanswer₂.trans hanswer, hcloses₂.trans hcloses, hcase₂⟩
        simp only [bind, Except.bind, if_neg (Int.not_lt.mpr hn), hchunk]
        exact heq₂

/-- A call with items of no size returns 0, however many it is given. -/
def FwriteArgs.Vain (w : FwriteArgs) : Prop := w.size = 0 ∧ w.nmemb ≠ 0

/-- **`fwrite`** takes all of its items, or does not return their number. -/
theorem fwrite_sink (h : Buffered s f x) (hw : w.Fits) :
    ∃ n f' s', sinkDevice.fwrite s w.data w.size w.nmemb f = .ok (n, f', s') ∧ s'.answer = s.answer ∧
      s'.closes = s.closes ∧ ((n = w.nmemb ∧ ¬ w.Vain ∧ Buffered s' f' (x ++ w.data)) ∨
        (n ≠ w.nmemb ∧ (w.Vain ∨ WriteFails s.answer (x ++ w.data).length))) := by
  unfold Device.fwrite
  split
  · rename_i hzero
    have hlen : w.data.length = 0 := by
      rw [hw.1, Nat.mul_eq_zero]
      exact hzero.resolve_left (not_not_intro h.isWrite)
    rw [List.length_eq_zero_iff.mp hlen, List.append_nil]
    refine ⟨0, f, s, rfl, rfl, rfl, ?_⟩
    by_cases hnone : w.nmemb = 0
    · exact .inl ⟨hnone.symm, fun hvain => hvain.2 hnone, h⟩
    · have hsize := (hzero.resolve_left (not_not_intro h.isWrite)).resolve_right hnone
      exact .inr ⟨Ne.symm hnone, .inl ⟨hsize, hnone⟩⟩
  · rename_i hsome
    have hpos : 0 < w.size := Nat.pos_of_ne_zero fun hzero => hsome (.inr (.inl hzero))
    have htotal : w.size * w.nmemb % 2 ^ 64 = w.data.length := by
      rw [← hw.1]
      exact Nat.mod_eq_of_lt hw.2
    obtain ⟨n, f', s', heq, hanswer, hcloses, hcase⟩ :=
      fwriteLoop_sink w.data.length s f x w.data 0 le_rfl h
    rw [Nat.zero_add] at hcase
    refine ⟨n / w.size, f', s', ?_, hanswer, hcloses, ?_⟩
    · simp only [htotal, List.take_length, heq]
      rfl
    · rcases hcase with ⟨hn, h'⟩ | ⟨hn, hfails⟩
      · refine .inl ⟨?_, fun hvain => hpos.ne' hvain.1, h'⟩
        rw [hn, hw.1, Nat.mul_div_cancel_left _ hpos]
      · refine .inr ⟨fun hall => ?_, .inr hfails⟩
        rw [hw.1, ← hall] at hn
        exact absurd (Nat.mul_div_le n w.size) (Nat.not_le.mpr hn)

/-- A sink never faults, whatever the stream is like. -/
theorem fwriteLoop_ok (fuel : Nat) (s : Sink) (f : FILE) (src : List (BitVec 8)) (written : Nat) :
    ∃ n f' s', sinkDevice.fwriteLoop fuel s f src written = .ok (n, f', s') := by
  induction fuel generalizing s f src written with
  | zero => exact ⟨written, f, s, rfl⟩
  | succ fuel ih =>
    have hflush : ∃ n f₁ s₁, sinkDevice.fwriteFlush s f = .ok (n, f₁, s₁) := by
      unfold Device.fwriteFlush
      split
      · obtain ⟨n, s₁, heq⟩ := s.write_ok f.fd (f.buf.take f.bufPos)
        rw [heq]
        exact ⟨_, _, _, rfl⟩
      · exact ⟨_, _, _, rfl⟩
    obtain ⟨n, f₁, s₁, heq⟩ := hflush
    rw [Device.fwriteLoop, heq]
    simp only [bind, Except.bind]
    split
    · exact ⟨_, _, _, rfl⟩
    · split
      · exact ⟨_, _, _, rfl⟩
      · exact ih s₁ _ _ _

theorem fwriteAll_ok (ws : List FwriteArgs) (s : Sink) (f : FILE) :
    ∃ ns f' s', sinkDevice.fwriteAll ws s f = .ok (ns, f', s') := by
  induction ws generalizing s f with
  | nil => exact ⟨[], f, s, rfl⟩
  | cons w ws ih =>
    have hone : ∃ n f₁ s₁, sinkDevice.fwrite s w.data w.size w.nmemb f = .ok (n, f₁, s₁) := by
      unfold Device.fwrite
      split
      · exact ⟨_, _, _, rfl⟩
      · obtain ⟨n, f₁, s₁, heq⟩ := fwriteLoop_ok (w.size * w.nmemb % 2 ^ 64) s f
          (w.data.take (w.size * w.nmemb % 2 ^ 64)) 0
        simp only [heq]
        exact ⟨_, _, _, rfl⟩
    obtain ⟨n, f₁, s₁, heq⟩ := hone
    obtain ⟨ns, f₂, s₂, heq₂⟩ := ih s₁ f₁
    rw [Device.fwriteAll, heq]
    simp only [bind, Except.bind, heq₂]
    exact ⟨_, _, _, rfl⟩

/-- **Any number of calls** take all of their items, or one does not return their number. -/
theorem fwriteAll_sink (ws : List FwriteArgs) (s : Sink) (f : FILE) (x : List (BitVec 8))
    (hws : ∀ w ∈ ws, w.Fits) (h : Buffered s f x) :
    ∃ ns f' s', sinkDevice.fwriteAll ws s f = .ok (ns, f', s') ∧
      ((ns = ws.map FwriteArgs.nmemb ∧ (∀ w ∈ ws, ¬ w.Vain) ∧ s'.answer = s.answer ∧
          s'.closes = s.closes ∧ Buffered s' f' (x ++ dataOf ws)) ∨
        (ns ≠ ws.map FwriteArgs.nmemb ∧
          ((∃ w ∈ ws, w.Vain) ∨ WriteFails s.answer (x ++ dataOf ws).length))) := by
  induction ws generalizing s f x with
  | nil => exact ⟨[], f, s, rfl, .inl ⟨rfl, nofun, rfl, rfl, by simpa [dataOf] using h⟩⟩
  | cons w ws ih =>
    obtain ⟨n, f₁, s₁, heq, hanswer, hcloses, hcase⟩ := fwrite_sink h (hws w List.mem_cons_self)
    have hall : x ++ dataOf (w :: ws) = x ++ w.data ++ dataOf ws := by
      rw [List.append_assoc]
      rfl
    have hrun : ∀ {ns f' s'}, sinkDevice.fwriteAll ws s₁ f₁ = .ok (ns, f', s') →
        sinkDevice.fwriteAll (w :: ws) s f = .ok (n :: ns, f', s') := by
      intro ns f' s' hrest
      rw [Device.fwriteAll, heq]
      simp only [bind, Except.bind, hrest]
      rfl
    rw [hall, List.map_cons]
    rcases hcase with ⟨rfl, hvain, h₁⟩ | ⟨hn, hcase⟩
    · obtain ⟨ns, f', s', heq', hcase'⟩ := ih s₁ f₁ _ (fun v hv => hws v (List.mem_cons_of_mem w hv)) h₁
      refine ⟨_, f', s', hrun heq', ?_⟩
      rw [hanswer, hcloses] at hcase'
      rcases hcase' with ⟨rfl, hvains, hrest⟩ | ⟨hns, hcase'⟩
      · exact .inl ⟨rfl, List.forall_mem_cons.mpr ⟨hvain, hvains⟩, hrest⟩
      · refine .inr ⟨fun hall => hns (List.cons.inj hall).2, hcase'.imp_left ?_⟩
        rintro ⟨v, hv, hvain'⟩
        exact ⟨v, List.mem_cons_of_mem w hv, hvain'⟩
    · obtain ⟨ns, f', s', heq'⟩ := fwriteAll_ok ws s₁ f₁
      refine ⟨_, f', s', hrun heq', .inr ⟨fun hall => hn (List.cons.inj hall).1, ?_⟩⟩
      refine hcase.imp (fun hvain => ⟨w, List.mem_cons_self, hvain⟩) fun hfails => hfails.mono ?_
      rw [@List.length_append _ _ (dataOf ws)]
      exact Nat.le_add_right _ _

/-- **`fclose`** hands over what is left, or does not return 0. -/
theorem fclose_sink (h : Buffered s f x) : ∃ r s', sinkDevice.fclose s f = .ok (r, s') ∧
    ((r = 0 ∧ s.closes = true ∧ s'.answer = s.answer ∧ Handed s' x) ∨
      (r ≠ 0 ∧ (WriteFails s.answer x.length ∨ s.closes = false))) := by
  have hlength := h.length
  have hclose : ∀ t : Sink, sinkDevice.close t f.fd = .ok (if t.closes then 0 else -1, t) := fun t => rfl
  by_cases hzero : f.bufPos = 0
  · have hflush : sinkDevice.fcloseFlush s f = .ok (0, s) := by
      rw [Device.fcloseFlush, if_neg fun hpos => by omega]
    have hhanded := h.handed
    rw [List.take_of_length_le (by omega)] at hhanded
    rw [Device.fclose, hflush]
    simp only [bind, Except.bind, hclose]
    cases hcloses : s.closes with
    | true => exact ⟨0, s, rfl, .inl ⟨rfl, rfl, rfl, hhanded⟩⟩
    | false => exact ⟨-1, s, rfl, .inr ⟨by decide, .inr rfl⟩⟩
  · have hflush : sinkDevice.fcloseFlush s f = sinkDevice.write s f.fd (f.buf.take f.bufPos) := by
      rw [Device.fcloseFlush, if_pos ⟨h.isWrite, Nat.pos_of_ne_zero hzero⟩]
    rw [Device.fclose, hflush]
    cases hanswer : s.answer s.calls with
    | none =>
      rw [Sink.write_none hanswer]
      exact ⟨-1, _, rfl, .inr ⟨by decide, .inl ⟨s.calls, by omega, hanswer⟩⟩⟩
    | some k =>
      have hhanded := h.handOver (Nat.pos_of_ne_zero hzero) hanswer
      rw [Sink.write_some hanswer]
      generalize min k (f.buf.take f.bufPos).length = m
      have hnonneg : ¬ ((m : Int) < 0) := Int.not_lt.mpr (Int.natCast_nonneg m)
      simp only [bind, Except.bind, hclose, hnonneg, false_or]
      change ∃ r s', Except.ok (if (if s.closes then (0 : Int) else -1) < 0 then (-1 : Int) else 0, _) = _ ∧ _
      cases hcloses : s.closes with
      | true => exact ⟨0, _, rfl, .inl ⟨rfl, rfl, rfl, hhanded⟩⟩
      | false => exact ⟨-1, _, rfl, .inr ⟨by decide, .inr rfl⟩⟩

end Buffered

/-! ## 5. Nothing is lost silently -/

section Lossless

variable {answer : Nat → Option Nat} {closes : Bool} {s : Sink} {f : FILE} {x : List (BitVec 8)}
  {ws : List FwriteArgs}

/-- The descriptor has taken all of `x` just if no call was short. -/
theorem Handed.accepted_iff (h : Handed s x) : s.accepted = x ↔
    ∀ k n, fileBufSize * k < x.length → s.answer k = some n → chunkSize x.length k ≤ n := by
  rw [h.eq_iff]
  constructor
  · intro hall k n hk hn
    refine hall k (Nat.lt_of_not_le fun hle => ?_) n hn
    exact absurd (h.calls.trans (Nat.mul_le_mul_left _ hle)) (Nat.not_le.mpr hk)
  · intro hall k hk n hn
    exact hall k n (h.full k hk) hn

theorem Handed.not_writeFails (h : Handed s x) : ¬ WriteFails s.answer x.length := by
  rintro ⟨k, hk, hnone⟩
  refine h.answered k (Nat.lt_of_not_le fun hle => ?_) hnone
  exact absurd (h.calls.trans (Nat.mul_le_mul_left _ hle)) (Nat.not_le.mpr hk)

theorem losesNothing_iff {ns : List Nat} {r : Int}
    (hrun : sinkDevice.writeStream ws (newSink answer closes) f = .ok (ns, r, s)) :
    LosesNothing answer closes f ws ↔
      (ns = ws.map FwriteArgs.nmemb ∧ r = 0 → s.accepted = dataOf ws) := by
  constructor
  · rintro ⟨ns', r', s', hrun', h⟩
    cases hrun.symm.trans hrun'
    exact h
  · intro h
    exact ⟨ns, r, s, hrun, h⟩

/-- **Nothing is lost silently, just if a failure is seen or no call is short.**  A failure is seen if a
call has items of no size, if `write()` fails among the calls that the bytes need, or if `close()` does. -/
theorem buffered_writes_lossless_iff (answer : Nat → Option Nat) (closes : Bool) (fd : Int)
    (buf : List (BitVec 8)) (hbuf : buf.length = fileBufSize) (ws : List FwriteArgs)
    (hws : ∀ w ∈ ws, w.Fits) :
    LosesNothing answer closes (newStream fd true buf) ws ↔
      (∃ w ∈ ws, w.Vain) ∨ WriteFails answer (dataOf ws).length ∨ closes = false ∨
        ∀ k n, fileBufSize * k < (dataOf ws).length → answer k = some n →
          chunkSize (dataOf ws).length k ≤ n := by
  obtain ⟨ns, f, s, heq, hcase⟩ :=
    fwriteAll_sink ws (newSink answer closes) _ [] hws (newStream_buffered fd hbuf)
  rw [List.nil_append] at hcase
  have hrun : ∀ {r s'}, sinkDevice.fclose s f = .ok (r, s') →
      sinkDevice.writeStream ws (newSink answer closes) (newStream fd true buf) = .ok (ns, r, s') := by
    intro r s' hclose
    rw [Device.writeStream, heq]
    simp only [bind, Except.bind, hclose]
    rfl
  rcases hcase with ⟨rfl, hvain, hanswer, hcloses, h⟩ | ⟨hns, hcase⟩
  · obtain ⟨r, s', hclose, hcase⟩ := fclose_sink h
    rw [losesNothing_iff (hrun hclose)]
    rw [hanswer, hcloses] at hcase
    rcases hcase with ⟨rfl, htrue, hanswer', hhanded⟩ | ⟨hr, hcase⟩
    · have hfails := hhanded.not_writeFails
      have haccepted := hhanded.accepted_iff
      rw [hanswer'] at hfails haccepted
      have hclosed : ¬ closes = false := by
        rw [show closes = true from htrue]
        decide
      change ¬ WriteFails answer _ at hfails
      change s'.accepted = _ ↔ ∀ k n, _ → answer k = _ → _ at haccepted
      have hnone : ¬ ∃ w ∈ ws, w.Vain := fun ⟨w, hw, hv⟩ => hvain w hw hv
      rw [or_iff_right hnone, or_iff_right hfails, or_iff_right hclosed, ← haccepted]
      exact ⟨fun hall => hall ⟨rfl, rfl⟩, fun hall _ => hall⟩
    · exact iff_of_true (fun hall => absurd hall.2 hr)
        (.inr (hcase.imp_right .inl))
  · obtain ⟨r, s', hclose⟩ : ∃ r s', sinkDevice.fclose s f = .ok (r, s') := by
      unfold Device.fclose Device.fcloseFlush
      split
      · obtain ⟨n, s₁, heq⟩ := s.write_ok f.fd (f.buf.take f.bufPos)
        rw [heq]
        exact ⟨_, _, rfl⟩
      · exact ⟨_, _, rfl⟩
    rw [losesNothing_iff (hrun hclose)]
    exact iff_of_true (fun hall => absurd hall.1 hns) (hcase.imp_right .inl)

/-- One byte is written, `write()` takes every byte it is given, and it is delivered. -/
theorem buffered_writes_lossless_one_byte :
    LosesNothing (fun _ => some 512) true (newStream 3 true zeroBuf) [⟨1, 1, [0x41]⟩] :=
  (buffered_writes_lossless_iff (fun _ => some 512) true 3 zeroBuf List.length_replicate
    [⟨1, 1, [0x41]⟩] (by simp [FwriteArgs.Fits])).mpr (.inr (.inr (.inr fun k n _ hn => by
      cases hn
      exact Nat.min_le_left _ _)))

/-- The quota has run out: of one byte `write()` takes none.  `fwrite` returns 1, `fclose` returns 0, and
the byte is nowhere. -/
theorem short_write_not_seen : ∃ s, sinkDevice.writeStream [⟨1, 1, [0x41]⟩]
    (newSink (fun _ => some 0) true) (newStream 3 true zeroBuf) = .ok ([1], 0, s) ∧
      s.accepted = [] ∧ dataOf [⟨1, 1, [0x41]⟩] = [0x41] ∧
      ¬ LosesNothing (fun _ => some 0) true (newStream 3 true zeroBuf) [⟨1, 1, [0x41]⟩] := by
  have hrun : sinkDevice.writeStream [⟨1, 1, [0x41]⟩] (newSink (fun _ => some 0) true)
      (newStream 3 true zeroBuf) = .ok ([1], 0, ⟨fun _ => some 0, true, 1, []⟩) := rfl
  refine ⟨_, hrun, rfl, rfl, ?_⟩
  rw [losesNothing_iff hrun]
  decide

end Lossless

end AcornOS
