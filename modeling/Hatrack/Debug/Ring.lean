import Hatrack.Queue.State
import Mathlib.Data.List.GetD
import Mathlib.Data.List.Basic

/-! The debugging ring of `debug.h`: `hatrack_debug` and `hatrack_debug_ptr` stamp a record with a
sequence number and copy a message into the slot that number selects; a pointer is printed in
front of its message as `0x`, its hex digits and `": "`, and those digits read back as the
pointer. -/

namespace Hatrack

/-- The settings `debug.h` takes from `config.h`, which the sources do not include, and the table
it declares `extern`. -/
structure DebugConfig where
  /-- `HATRACK_PTR_CHRS`, the hex digits a pointer is printed with. -/
  ptrChrs : Nat
  /-- `HATRACK_DEBUG_MSG_SIZE`, the bytes of a record's message. -/
  msgSize : Nat
  /-- `HATRACK_DEBUG_RING_LAST_SLOT`, the mask that picks a record's slot. -/
  ringLastSlot : Nat
  /-- `__hatrack_hex_conversion_table`, the character of each digit value. -/
  hexTable : Nat → Char

/-- `HATRACK_PTR_FMT_CHRS` as `debug.h` redefines it: the `0x` before the digits and the `": "`
after them. -/
def hatrackPtrFmtChrs : Nat := 4

section Strings

/-- The first `n` bytes of a `char` array. -/
def charsOf (buf : Nat → Char) (n : Nat) : List Char :=
  (List.range n).map buf

/-- The C string in the first `n` bytes of an array: its bytes up to the first NUL. -/
def readString (buf : Nat → Char) (n : Nat) : List Char :=
  (charsOf buf n).takeWhile (· ≠ '\x00')

/-- `strcpy(dst, src)` for the C string `src`: its bytes, then a NUL. -/
def strcpyInto (dst : Nat → Char) (src : List Char) : Nat → Char :=
  fun i => if i < src.length then src.getD i '\x00' else if i = src.length then '\x00' else dst i

/-- `strncpy(dst + off, src, n)`: the first `n` bytes of `src` from `off` on, NUL-padded when `src`
is shorter, and no NUL when it is not. -/
def strncpyAt (dst : Nat → Char) (off : Nat) (src : List Char) (n : Nat) : Nat → Char :=
  fun i => if off ≤ i ∧ i < off + n then src.getD (i - off) '\x00' else dst i

/-- `strcpy` ends its copy with a NUL right after the string. -/
@[simp] theorem strcpyInto_length (dst : Nat → Char) (src : List Char) :
    strcpyInto dst src src.length = '\x00' := by
  simp [strcpyInto]

/-- `strcpy` leaves the bytes after the NUL alone. -/
theorem strcpyInto_above {dst : Nat → Char} {src : List Char} {i : Nat} (above : src.length < i) :
    strcpyInto dst src i = dst i := by
  rw [strcpyInto, if_neg (by omega), if_neg (by omega)]

/-- `strncpy` of no bytes writes nothing. -/
@[simp] theorem strncpyAt_zero (dst : Nat → Char) (off : Nat) (src : List Char) :
    strncpyAt dst off src 0 = dst :=
  funext fun i => if_neg (by omega)

/-- The first bytes of an array, one more at a time. -/
theorem charsOf_succ (buf : Nat → Char) (n : Nat) :
    charsOf buf (n + 1) = charsOf buf n ++ [buf n] := by
  simp only [charsOf, List.range_succ, List.map_append, List.map_singleton]

/-- The first `a + b` bytes: the first `a`, then `b` more from `a` on. -/
theorem charsOf_add (buf : Nat → Char) (a b : Nat) :
    charsOf buf (a + b) = charsOf buf a ++ charsOf (fun i => buf (a + i)) b := by
  induction b with
  | zero => rw [Nat.add_zero]; exact (List.append_nil _).symm
  | succ b ih => rw [← Nat.add_assoc, charsOf_succ, ih, charsOf_succ, List.append_assoc]

/-- An array that holds a list in its first bytes. -/
theorem charsOf_of_holds {buf : Nat → Char} {xs : List Char}
    (holds : ∀ i (lt : i < xs.length), buf i = xs[i]) : charsOf buf xs.length = xs :=
  List.ext_getElem (by simp [charsOf]) fun i lt _ => by
    simp only [charsOf, List.getElem_map, List.getElem_range]
    exact holds i (by simpa [charsOf] using lt)

/-- An array holding a list and then NULs: the list, cut or padded to `n` bytes. -/
theorem charsOf_getD (xs : List Char) (n : Nat) :
    charsOf (fun i => xs.getD i '\x00') n = xs.take n ++ List.replicate (n - xs.length) '\x00' := by
  refine List.ext_getElem (by simp [charsOf]; omega) fun i lt _ => ?_
  have below : i < n := by simpa [charsOf] using lt
  simp only [charsOf, List.getElem_map, List.getElem_range, List.getElem_append, List.length_take,
    List.getElem_take, List.getElem_replicate, List.getD_eq_getElem?_getD]
  split
  · rw [List.getElem?_eq_getElem (by omega)]; rfl
  · rw [List.getElem?_eq_none (by omega)]; rfl

/-- The C string `strncpy` leaves behind a string `pre` without NUL: `pre`, then as much of a
NUL-free `src` as fits. -/
theorem readString_strncpyAt {dst : Nat → Char} {pre src : List Char} {n : Nat}
    (holds : charsOf dst pre.length = pre) (plain : '\x00' ∉ pre) (clean : '\x00' ∉ src) :
    readString (strncpyAt dst pre.length src n) (pre.length + n) = pre ++ src.take n := by
  -- The prefix is left alone, the copied bytes come next, and the padding is all NUL.
  have front : charsOf (strncpyAt dst pre.length src n) pre.length = pre :=
    Eq.trans (show charsOf _ _ = charsOf dst pre.length from
      List.map_congr_left fun i member => if_neg (by simp at member; omega)) holds
  have back : charsOf (fun i => strncpyAt dst pre.length src n (pre.length + i)) n =
      charsOf (fun i => src.getD i '\x00') n :=
    List.map_congr_left fun i member => by
      simp at member
      simp only [strncpyAt, Nat.le_add_right, Nat.add_lt_add_iff_left, member, and_self, ite_true,
        Nat.add_sub_cancel_left]
  rw [readString, charsOf_add, front, back, charsOf_getD,
    List.takeWhile_append_of_pos (fun c member => by simp; exact fun same => plain (same ▸ member)),
    List.takeWhile_append_of_pos (fun c member => by
      simp; exact fun same => clean (same ▸ List.mem_of_mem_take member))]
  cases h : n - src.length with
  | zero => rw [List.replicate, List.takeWhile_nil, List.append_nil]
  | succ m => simp [List.replicate_succ]

end Strings
section Format

/-- The loop of lines 97 to 100 with `i` digits still to print and the pointer at `p`: store the
character of the low four bits of `n` at `--p`, then shift `n` right by four. -/
def hexFill (table : Nat → Char) : Nat → Nat → BitVec 64 → (Nat → Char) → Nat → Char
  | 0, _, _, buf => buf
  | i + 1, p, n, buf =>
    hexFill table i (p - 1) (n >>> 4) (writeAt buf (p - 1) (table (n &&& 0xf).toNat))

/-- The `i` digits that loop prints for `n`, most significant first. -/
def ptrDigits (table : Nat → Char) : Nat → BitVec 64 → List Char
  | 0, _ => []
  | i + 1, n => ptrDigits table i (n >>> 4) ++ [table (n &&& 0xf).toNat]

/-- Reading hex digits with `untable`, the value of each digit, most significant first. -/
def readHex (untable : Char → Nat) (digits : List Char) : Nat :=
  digits.foldl (fun value c => 16 * value + untable c) 0

variable {table : Nat → Char}

/-- There are as many digits as the loop runs. -/
@[simp] theorem ptrDigits_length (i : Nat) (n : BitVec 64) : (ptrDigits table i n).length = i := by
  induction i generalizing n with
  | zero => rfl
  | succ i ih => simp [ptrDigits, ih]

/-- The loop leaves the bytes below `q` alone. -/
theorem hexFill_below {i q j : Nat} {n : BitVec 64} {buf : Nat → Char} (below : j < q) :
    hexFill table i (q + i) n buf j = buf j := by
  induction i generalizing n buf with
  | zero => rfl
  | succ i ih =>
    rw [hexFill, ← Nat.add_assoc, Nat.add_sub_cancel, ih, writeAt_ne (by omega)]

/-- The loop leaves the bytes from the start pointer on alone. -/
theorem hexFill_above {i p j : Nat} {n : BitVec 64} {buf : Nat → Char} (room : i ≤ p)
    (above : p ≤ j) : hexFill table i p n buf j = buf j := by
  induction i generalizing p n buf with
  | zero => rfl
  | succ i ih =>
    rw [hexFill, ih (by omega : i ≤ p - 1) (by omega : p - 1 ≤ j), writeAt_ne (by omega)]

/-- The loop stores the digits of `n` in the `i` bytes below its start pointer. -/
theorem hexFill_digits (i q : Nat) (n : BitVec 64) (buf : Nat → Char) :
    charsOf (fun k => hexFill table i (q + i) n buf (q + k)) i = ptrDigits table i n := by
  induction i generalizing n buf with
  | zero => rfl
  | succ i ih =>
    -- The first store lands in the last byte, and the rest of the loop runs below it.
    rw [charsOf_succ, hexFill, ← Nat.add_assoc, Nat.add_sub_cancel, ih,
      hexFill_above (Nat.le_add_left _ _) (Nat.le_refl _), writeAt_same]
    rfl

/-- Each digit of `n` reads back as four bits of it: the digits are `n` modulo `16 ^ i`. -/
theorem readHex_ptrDigits {untable : Char → Nat} (decodes : ∀ d < 16, untable (table d) = d)
    (i : Nat) (n : BitVec 64) : readHex untable (ptrDigits table i n) = n.toNat % 16 ^ i := by
  induction i generalizing n with
  | zero => simp [ptrDigits, readHex, Nat.mod_one]
  | succ i ih =>
    have low : (n &&& 0xf).toNat = n.toNat % 16 := by
      simpa using Nat.and_pow_two_sub_one_eq_mod n.toNat 4
    have high : (n >>> 4).toNat = n.toNat / 16 := by
      simpa using Nat.shiftRight_eq_div_pow n.toNat 4
    have step : readHex untable (ptrDigits table (i + 1) n) =
        16 * readHex untable (ptrDigits table i (n >>> 4)) + untable (table (n &&& 0xf).toNat) := by
      simp only [ptrDigits, readHex, List.foldl_append, List.foldl_cons, List.foldl_nil]
    rw [step, ih, high, decodes _ (low ▸ Nat.mod_lt _ (by decide)), low, Nat.pow_succ',
      Nat.mod_mul]
    omega

end Format
section Record

variable (cfg : DebugConfig)

/-- `buf` of `hatrack_debug_ptr` after its loop: `{'0', 'x'}` zeroes the rest of the array, and
the pointer `p`, from the end, stores `' '`, `':'` and then the digits of `addr` (lines 78 to
100). -/
def debugPtrBuf (addr : BitVec 64) : Nat → Char :=
  let init : Nat → Char := fun i => if i = 0 then '0' else if i = 1 then 'x' else '\x00'
  let p := cfg.ptrChrs + hatrackPtrFmtChrs
  hexFill cfg.hexTable cfg.ptrChrs (p - 2) addr (writeAt (writeAt init (p - 1) ' ') (p - 2) ':')

/-- The message `hatrack_debug_ptr` leaves in a record whose message was `old`: `strcpy` of
`buf`, then `strncpy` of `msg` after the prefix into the room left (lines 101 to 104). -/
def debugPtrMsg (old : Nat → Char) (addr : BitVec 64) (msg : List Char) : Nat → Char :=
  strncpyAt
    (strcpyInto old (readString (debugPtrBuf cfg addr) (cfg.ptrChrs + hatrackPtrFmtChrs + 1)))
    (cfg.ptrChrs + hatrackPtrFmtChrs) msg (cfg.msgSize - cfg.ptrChrs - hatrackPtrFmtChrs)

/-- The text a pointer is printed as: `0x`, its digits and `": "`. -/
def ptrPrefix (addr : BitVec 64) : List Char :=
  '0' :: 'x' :: ptrDigits cfg.hexTable cfg.ptrChrs addr ++ [':', ' ']

variable {cfg}

/-- The prefix has the room `HATRACK_PTR_CHRS + HATRACK_PTR_FMT_CHRS` sets aside for it. -/
@[simp] theorem ptrPrefix_length (addr : BitVec 64) :
    (ptrPrefix cfg addr).length = cfg.ptrChrs + hatrackPtrFmtChrs := by
  simp [ptrPrefix, hatrackPtrFmtChrs]

/-- The buffer holds the prefix and then its NUL. -/
theorem charsOf_debugPtrBuf (addr : BitVec 64) :
    charsOf (debugPtrBuf cfg addr) (cfg.ptrChrs + hatrackPtrFmtChrs + 1) =
      ptrPrefix cfg addr ++ ['\x00'] := by
  -- Two bytes of the initializer, the digits, and the three bytes stored or zeroed after them.
  have start : cfg.ptrChrs + hatrackPtrFmtChrs - 2 = 2 + cfg.ptrChrs := by
    simp only [hatrackPtrFmtChrs]; omega
  have split : cfg.ptrChrs + hatrackPtrFmtChrs + 1 = 2 + (cfg.ptrChrs + 3) := by
    simp only [hatrackPtrFmtChrs]; omega
  have above : ∀ k {buf : Nat → Char},
      hexFill cfg.hexTable cfg.ptrChrs (2 + cfg.ptrChrs) addr buf (2 + (cfg.ptrChrs + k)) =
        buf (2 + (cfg.ptrChrs + k)) := fun k => hexFill_above (Nat.le_add_left _ _) (by omega)
  rw [split, charsOf_add, charsOf_add]
  simp only [debugPtrBuf, start, ptrPrefix, hexFill_digits]
  simp only [charsOf, List.range_succ, List.range_zero, List.map, List.nil_append, above,
    hexFill_below (show 0 < 2 by decide), hexFill_below (show 1 < 2 by decide)]
  simp only [hatrackPtrFmtChrs, writeAt_apply]
  simp (disch := omega) only [if_pos, if_neg, ite_true, List.nil_append, List.cons_append,
    List.singleton_append, List.append_assoc]

/-- Every digit is a character of the table. -/
theorem mem_ptrDigits {table : Nat → Char} {i : Nat} {n : BitVec 64} {c : Char}
    (member : c ∈ ptrDigits table i n) : ∃ d < 16, c = table d := by
  induction i generalizing n with
  | zero => cases member
  | succ i ih =>
    rcases List.mem_append.mp member with earlier | last
    · exact ih earlier
    · refine ⟨_, ?_, List.mem_singleton.mp last⟩
      rw [BitVec.toNat_and]
      exact Nat.lt_of_le_of_lt Nat.and_le_right (by decide)

/-- With a table of printable characters the prefix holds no NUL. -/
theorem nul_not_mem_ptrPrefix (printable : ∀ d < 16, cfg.hexTable d ≠ '\x00') (addr : BitVec 64) :
    '\x00' ∉ ptrPrefix cfg addr := by
  intro member
  simp only [ptrPrefix, List.cons_append, List.mem_cons, List.mem_append, List.mem_singleton]
    at member
  rcases member with bad | bad | digit | bad | bad
  any_goals exact absurd bad (by decide)
  obtain ⟨d, small, same⟩ := mem_ptrDigits digit
  exact printable d small same.symm

/-- What `strcpy` copies out of the buffer: the prefix, up to the NUL the initializer left
after it. -/
theorem readString_debugPtrBuf (printable : ∀ d < 16, cfg.hexTable d ≠ '\x00') (addr : BitVec 64) :
    readString (debugPtrBuf cfg addr) (cfg.ptrChrs + hatrackPtrFmtChrs + 1) =
      ptrPrefix cfg addr := by
  have plain := nul_not_mem_ptrPrefix printable addr
  rw [readString, charsOf_debugPtrBuf,
    List.takeWhile_append_of_pos fun c member => by
      simp; exact fun same => plain (same ▸ member),
    List.takeWhile_cons_of_neg (by simp), List.append_nil]

/-- The message `hatrack_debug_ptr` leaves reads as the pointer's prefix and then as much of `msg`
as the record has room for. -/
theorem readString_debugPtrMsg (printable : ∀ d < 16, cfg.hexTable d ≠ '\x00')
    (fits : cfg.ptrChrs + hatrackPtrFmtChrs ≤ cfg.msgSize) {msg : List Char}
    (clean : '\x00' ∉ msg) (old : Nat → Char) (addr : BitVec 64) :
    readString (debugPtrMsg cfg old addr msg) cfg.msgSize =
      ptrPrefix cfg addr ++ msg.take (cfg.msgSize - cfg.ptrChrs - hatrackPtrFmtChrs) := by
  -- `strcpy` stops at the NUL after the prefix, and `strncpy` starts right there.
  have plain := nul_not_mem_ptrPrefix printable addr
  have copied := readString_debugPtrBuf printable addr
  have holds : charsOf (strcpyInto old (ptrPrefix cfg addr)) (ptrPrefix cfg addr).length =
      ptrPrefix cfg addr :=
    charsOf_of_holds fun i lt => by simp only [strcpyInto, if_pos lt, List.getD_eq_getElem _ _ lt]
  have len : (ptrPrefix cfg addr).length = _ := ptrPrefix_length addr
  calc readString (debugPtrMsg cfg old addr msg) cfg.msgSize
      = readString (strncpyAt (strcpyInto old (ptrPrefix cfg addr)) (ptrPrefix cfg addr).length msg
          (cfg.msgSize - cfg.ptrChrs - hatrackPtrFmtChrs))
          ((ptrPrefix cfg addr).length + (cfg.msgSize - cfg.ptrChrs - hatrackPtrFmtChrs)) := by
        rw [debugPtrMsg, copied, len]; congr 1; omega
    _ = _ := readString_strncpyAt holds plain clean

/-- `HATRACK_DEBUG_RING_LAST_SLOT` of the form `2 ^ k - 1` picks slot `s mod 2 ^ k`. -/
theorem and_lastSlot {k : Nat} (mask : cfg.ringLastSlot = 2 ^ k - 1) (s : Nat) :
    s &&& cfg.ringLastSlot = s % 2 ^ k := by
  rw [mask, Nat.and_pow_two_sub_one_eq_mod]

end Record

section Layout

/-- `hatrack_debug_record_t`: the sequence number at offset 0, and the bytes from `msg` on,
eight bytes further: the `HATRACK_DEBUG_MSG_SIZE` bytes of the message, the padding up to the
alignment of `thread`, the eight bytes of `thread` and `null`. A string function that writes past
the end of `msg` writes the bytes after it. -/
structure DebugRecord where
  sequence : Nat
  msg : Nat → Char

variable (cfg : DebugConfig)

/-- Where `thread` starts, counted from `msg`: `msg` begins at offset 8, after `sequence`, and an
`int64_t` is aligned to eight bytes. -/
def threadOffset : Nat := (cfg.msgSize + 7) / 8 * 8

/-- Byte `k` of the 64-bit two's complement of `tid`, least significant first. -/
def int64Byte (tid : Int) (k : Nat) : Char :=
  Char.ofNat ((BitVec.ofInt 64 tid).toNat / 256 ^ k % 256)

/-- `record_ptr->thread = mmm_mytid` (lines 67 and 89): the eight bytes of `thread` hold the
thread's number. -/
def storeThread (tid : Int) (bytes : Nat → Char) : Nat → Char :=
  fun i =>
    if threadOffset cfg ≤ i ∧ i < threadOffset cfg + 8 then int64Byte tid (i - threadOffset cfg)
    else bytes i

/-- The value of `k` bytes, least significant first. -/
def readLE (byte : Nat → Char) : Nat → Nat
  | 0 => 0
  | k + 1 => (byte 0).toNat % 256 + 256 * readLE (fun i => byte (i + 1)) k

/-- The record's `thread`, read from its eight bytes. -/
def DebugRecord.thread (record : DebugRecord) : BitVec 64 :=
  BitVec.ofNat 64 (readLE (fun k => record.msg (threadOffset cfg + k)) 8)

variable {cfg}

/-- `thread` starts after the message. -/
theorem msgSize_le_threadOffset : cfg.msgSize ≤ threadOffset cfg := by
  unfold threadOffset; omega

/-- A byte below 256 is stored and read back as itself. -/
theorem toNat_ofNat_byte {b : Nat} (byte : b < 256) : (Char.ofNat b).toNat = b := by
  rw [Char.ofNat, dif_pos (Or.inl (by omega))]
  simp [Char.ofNatAux, Char.toNat, UInt32.toNat]

/-- Reading `k` bytes looks at those bytes only. -/
theorem readLE_congr {f g : Nat → Char} {k : Nat} (same : ∀ i < k, f i = g i) :
    readLE f k = readLE g k := by
  induction k generalizing f g with
  | zero => rfl
  | succ k ih =>
    simp only [readLE, same 0 (Nat.succ_pos k), ih fun i lt => same (i + 1) (by omega)]

/-- Byte `k + 1` of `x` is byte `k` of `x / 256`. -/
theorem byte_succ (x k : Nat) : x / 256 ^ (k + 1) % 256 = x / 256 / 256 ^ k % 256 := by
  rw [Nat.pow_succ', Nat.div_div_eq_div_mul]

/-- The bytes of a number read back as the number modulo `256 ^ k`. -/
theorem readLE_bytes (x k : Nat) :
    readLE (fun i => Char.ofNat (x / 256 ^ i % 256)) k = x % 256 ^ k := by
  induction k generalizing x with
  | zero => simp [readLE, Nat.mod_one]
  | succ k ih =>
    -- The low byte, then the bytes of `x / 256`.
    simp only [readLE, byte_succ]
    rw [ih, Nat.pow_zero, Nat.div_one, toNat_ofNat_byte (Nat.mod_lt _ (by decide)), Nat.mod_mod,
      Nat.pow_succ', Nat.mod_mul]

/-- The bytes `storeThread` writes. -/
theorem storeThread_thread {tid : Int} {bytes : Nat → Char} {k : Nat} (lt : k < 8) :
    storeThread cfg tid bytes (threadOffset cfg + k) = int64Byte tid k := by
  rw [storeThread, if_pos ⟨Nat.le_add_right _ _, by omega⟩, Nat.add_sub_cancel_left]

/-- A record whose eight `thread` bytes are those of `tid` holds the thread's number. -/
theorem DebugRecord.thread_eq {record : DebugRecord} {tid : Int}
    (stored : ∀ k < 8, record.msg (threadOffset cfg + k) = int64Byte tid k) :
    record.thread cfg = BitVec.ofInt 64 tid := by
  have bytes : readLE (int64Byte tid) 8 = (BitVec.ofInt 64 tid).toNat :=
    (readLE_bytes _ 8).trans (Nat.mod_eq_of_lt (BitVec.isLt _))
  rw [DebugRecord.thread, readLE_congr stored, bytes, BitVec.ofNat_toNat, BitVec.setWidth_eq]

end Layout

section Ring

variable (cfg : DebugConfig)


/-- `__hatrack_debug_sequence` and the ring `__hatrack_debug`. -/
structure DebugRing where
  sequence : Nat
  records : Nat → DebugRecord

/-- What the two writers share: take the next sequence number with `atomic_fetch_add`, stamp
the record in the slot its low bits pick with it and with the thread, and then fill its message
with `fill` from the bytes it finds there. -/
def stampRecord (ring : DebugRing) (tid : Int) (fill : (Nat → Char) → Nat → Char) : DebugRing :=
  let index := ring.sequence &&& cfg.ringLastSlot
  { sequence := ring.sequence + 1
    records := writeAt ring.records index
      { sequence := ring.sequence, msg := fill (storeThread cfg tid (ring.records index).msg) } }

/-- `hatrack_debug(msg)` by thread `tid` (lines 57 to 70), run without interruption: the message
is `strncpy`'d into the record. -/
def hatrackDebug (tid : Int) (msg : List Char) (ring : DebugRing) : DebugRing :=
  stampRecord cfg ring tid fun old => strncpyAt old 0 msg cfg.msgSize

/-- `hatrack_debug_ptr(addr, msg)` by thread `tid` (lines 75 to 105), run without interruption:
the message is the pointer's prefix and then `msg`. -/
def hatrackDebugPtr (tid : Int) (addr : BitVec 64) (msg : List Char) (ring : DebugRing) :
    DebugRing :=
  stampRecord cfg ring tid fun old => debugPtrMsg cfg old addr msg

/-- A call of the ring's writers, `DEBUG(msg)` or `DEBUG_PTR(addr, msg)`, by thread `tid`. -/
inductive DebugCall where
  | debug (tid : Int) (msg : List Char)
  | debugPtr (tid : Int) (addr : BitVec 64) (msg : List Char)

namespace DebugCall

/-- The call's effect on the ring. -/
def run : DebugCall → DebugRing → DebugRing
  | debug tid msg => hatrackDebug cfg tid msg
  | debugPtr tid addr msg => hatrackDebugPtr cfg tid addr msg

/-- The thread that made the call. -/
def thread : DebugCall → Int
  | debug tid _ | debugPtr tid _ _ => tid

/-- The message passed to the call. -/
def msg : DebugCall → List Char
  | debug _ msg | debugPtr _ _ msg => msg

/-- The text the call's record should read as: its message cut to the record, behind the pointer's
prefix for `DEBUG_PTR`. -/
def text : DebugCall → List Char
  | debug _ msg => msg.take cfg.msgSize
  | debugPtr _ addr msg =>
    ptrPrefix cfg addr ++ msg.take (cfg.msgSize - cfg.ptrChrs - hatrackPtrFmtChrs)

/-- How the call fills the message of its record. -/
def fill : DebugCall → (Nat → Char) → Nat → Char
  | debug _ msg => fun old => strncpyAt old 0 msg cfg.msgSize
  | debugPtr _ addr msg => fun old => debugPtrMsg cfg old addr msg

variable {cfg}

/-- Both writers stamp a record the same way. -/
theorem run_eq_stampRecord (c : DebugCall) (ring : DebugRing) :
    c.run cfg ring = stampRecord cfg ring c.thread (c.fill cfg) := by
  cases c <;> rfl

/-- The record a call fills reads as the call's text. -/
theorem readString_fill (printable : ∀ d < 16, cfg.hexTable d ≠ '\x00')
    (fits : cfg.ptrChrs + hatrackPtrFmtChrs ≤ cfg.msgSize) {c : DebugCall} (clean : '\x00' ∉ c.msg)
    (old : Nat → Char) : readString (c.fill cfg old) cfg.msgSize = c.text cfg := by
  cases c with
  | debug tid msg =>
    -- No prefix: `strncpy` from the start of the record.
    have copied := @readString_strncpyAt old [] msg cfg.msgSize rfl (List.not_mem_nil _) clean
    rwa [List.length_nil, Nat.zero_add, List.nil_append] at copied
  | debugPtr tid addr msg => exact readString_debugPtrMsg printable fits clean old addr

/-- The record a call fills keeps every byte from the end of its message on, as long as the
pointer's prefix leaves room in the message for the NUL `strcpy` writes after it. -/
theorem fill_above (printable : ∀ d < 16, cfg.hexTable d ≠ '\x00')
    (room : cfg.ptrChrs + hatrackPtrFmtChrs < cfg.msgSize) (c : DebugCall) (old : Nat → Char)
    {i : Nat} (above : cfg.msgSize ≤ i) : c.fill cfg old i = old i := by
  cases c with
  | debug tid msg => exact if_neg (by omega)
  | debugPtr tid addr msg =>
    -- `strncpy` stops at the end of the message, `strcpy` at the prefix's NUL below it.
    have len : (ptrPrefix cfg addr).length = cfg.ptrChrs + hatrackPtrFmtChrs :=
      ptrPrefix_length addr
    simp only [fill, debugPtrMsg, readString_debugPtrBuf printable, strncpyAt, strcpyInto]
    rw [if_neg (by omega), if_neg (by omega), if_neg (by omega)]

end DebugCall

/-- The calls, one after the other, each run without interruption. -/
def runAll (calls : List DebugCall) (ring : DebugRing) : DebugRing :=
  calls.foldl (fun ring c => c.run cfg ring) ring

/-- A record holds call `c` stamped with sequence number `q`: its number, its thread and its
text. -/
def DebugRecord.Holds (record : DebugRecord) (q : Nat) (c : DebugCall) : Prop :=
  record.sequence = q ∧ record.thread cfg = BitVec.ofInt 64 c.thread ∧
    readString record.msg cfg.msgSize = c.text cfg

/-- Two sequence numbers closer than the ring's size pick different slots. -/
theorem mod_ne_of_close {m a b : Nat} (lt : a < b) (close : b < a + m) : a % m ≠ b % m := by
  intro same
  have apart := Nat.sub_mod_eq_zero_of_mod_eq same.symm
  rw [Nat.mod_eq_of_lt (by omega)] at apart
  omega

variable {cfg}

/-- Run one call at a time, a ring of `2 ^ k` records keeps the last `2 ^ k` calls: the record
in the slot of each of them holds its sequence number, its thread and its text, and every older
call has been overwritten by a later one. -/
theorem debugRing_keeps_last {k : Nat} (mask : cfg.ringLastSlot = 2 ^ k - 1)
    (printable : ∀ d < 16, cfg.hexTable d ≠ '\x00')
    (fits : cfg.ptrChrs + hatrackPtrFmtChrs < cfg.msgSize) (calls : List DebugCall)
    (clean : ∀ c ∈ calls, '\x00' ∉ c.msg) (ring : DebugRing) :
    (runAll cfg calls ring).sequence = ring.sequence + calls.length ∧
      ∀ s (lt : s < calls.length), calls.length ≤ s + 2 ^ k →
        ((runAll cfg calls ring).records ((ring.sequence + s) % 2 ^ k)).Holds cfg
          (ring.sequence + s) calls[s] := by
  induction calls using List.reverseRecOn with
  | nil => exact ⟨rfl, fun s lt => absurd lt (Nat.not_lt_zero _)⟩
  | append_singleton calls c ih =>
    obtain ⟨counted, held⟩ := ih fun c' member => clean c' (List.mem_append_left _ member)
    have step : runAll cfg (calls ++ [c]) ring = c.run cfg (runAll cfg calls ring) := by
      simp only [runAll, List.foldl_append, List.foldl_cons, List.foldl_nil]
    rw [step, DebugCall.run_eq_stampRecord]
    refine ⟨by simp only [stampRecord, counted, List.length_append, List.length_singleton,
      Nat.add_assoc], fun s lt close => ?_⟩
    simp only [stampRecord, counted, and_lastSlot mask]
    simp only [List.length_append, List.length_singleton] at lt close
    rcases Nat.lt_or_ge s calls.length with older | last
    · -- An older call: the slot just written is another one.
      rw [writeAt_ne (mod_ne_of_close (by omega) (by omega)), List.getElem_append_left older]
      exact held s older (by omega)
    · -- The call just made.
      obtain rfl : s = calls.length := by omega
      rw [writeAt_same, List.getElem_append_right (Nat.le_refl _)]
      simp only [Nat.sub_self, List.getElem_singleton]
      refine ⟨rfl, DebugRecord.thread_eq fun k lt => ?_,
        DebugCall.readString_fill printable fits.le (clean c (by simp)) _⟩
      -- The message ends before `thread`, whose bytes were stored first.
      exact (DebugCall.fill_above printable fits _ _
        (Nat.le_add_right_of_le msgSize_le_threadOffset)).trans (storeThread_thread lt)

/-- The lower-case hex digits, `0` to `9` and `a` to `f`. -/
def lowerHexDigit (d : Nat) : Char :=
  if d < 10 then Char.ofNat (48 + d) else Char.ofNat (87 + d)

/-- The value of a lower-case hex digit. -/
def lowerHexValue (c : Char) : Nat :=
  if c.toNat < 58 then c.toNat - 48 else c.toNat - 87

/-- A ring of 16 records with 64-byte messages, printing 64-bit pointers in 16 lower-case
digits. -/
def sampleDebugConfig : DebugConfig :=
  { ptrChrs := 16, msgSize := 64, ringLastSlot := 15, hexTable := lowerHexDigit }

/-- The zeroed ring and sequence number a program starts with. -/
def DebugRing.zero : DebugRing :=
  ⟨0, fun _ => ⟨0, fun _ => '\x00'⟩⟩

/-- A `DEBUG` and a `DEBUG_PTR` call from two threads. -/
def sampleCalls : List DebugCall :=
  [.debug 1 ['h', 'i'], .debugPtr 2 0x40#64 ['a']]

/-- Both sample calls are found in their slots of the sample ring. -/
theorem sampleRing_keeps_last :
    (sampleDebugConfig.ringLastSlot = 2 ^ 4 - 1 ∧
      (∀ d < 16, sampleDebugConfig.hexTable d ≠ '\x00') ∧
      sampleDebugConfig.ptrChrs + hatrackPtrFmtChrs < sampleDebugConfig.msgSize ∧
      ∀ c ∈ sampleCalls, '\x00' ∉ c.msg) ∧
    (runAll sampleDebugConfig sampleCalls DebugRing.zero).sequence =
        DebugRing.zero.sequence + sampleCalls.length ∧
      ∀ s (lt : s < sampleCalls.length), sampleCalls.length ≤ s + 2 ^ 4 →
        ((runAll sampleDebugConfig sampleCalls DebugRing.zero).records
          ((DebugRing.zero.sequence + s) % 2 ^ 4)).Holds sampleDebugConfig
          (DebugRing.zero.sequence + s) sampleCalls[s] :=
  ⟨⟨rfl, by decide, by decide, by decide⟩,
    debugRing_keeps_last rfl (by decide) (by decide) sampleCalls (by decide) DebugRing.zero⟩

/-- A ring whose messages are 16 bytes, with 12-digit pointers: the prefix fills the message. -/
def boundaryDebugConfig : DebugConfig :=
  { ptrChrs := 12, msgSize := 16, ringLastSlot := 15, hexTable := lowerHexDigit }

end Ring


end Hatrack
