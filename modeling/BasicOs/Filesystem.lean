import BasicOs.State

/-!
# The file system

The functions of `filesystem.c` that only read the module: `init_file_system`, the two directory
lookups, `file_open`'s scan, and `read_data`. The module is bytes in memory; every address and every
count is a 32-bit value, so sums wrap (`u32`).

* `effectiveName d` : the name a directory slot has, its bytes up to the first NUL or all 32;
* `lookup` : the first slot that has a name; `readDentryByName_eq`, `fileOpen_eq` : both scans compute it;
* `fileByte`, `readPos` : the bytes of a file, and the position of the one that a round of `read_data`'s
  loop reads;
* `readLoop_eq` : the loop in closed form;
* `Refuses` : the test before it, and `readData_of_refuses`, `readData_of_gt`, `readData_of_le` : the ways on.
-/

namespace BasicOs
open Bytes

def blockSize : Nat := 4096
def filenameLen : Nat := 32
def numDirentries : Nat := 63
def numDataBlocks : Nat := 1023

/-- `(uint32_t)-1`. -/
def minusOne : Nat := 2 ^ 32 - 1

/-- A directory entry (`dentry_t`): 32 name bytes, the type and the inode number. -/
structure Dentry where
  filename : List UInt8
  filetype : Nat
  inodeNum : Nat
  deriving DecidableEq

/-! ## Strings -/

/-- A byte as C's signed `char`. -/
def int8 (c : UInt8) : Int := if c.toNat < 128 then c.toNat else c.toNat - 256

/-- `strncmp` of `lib.c`. -/
def strncmp (s1 s2 : Nat → UInt8) : Nat → Int
  | 0 => 0
  | n + 1 =>
    if s1 0 ≠ s2 0 ∨ s1 0 = 0 then int8 (s1 0) - int8 (s2 0)
    else strncmp (fun i => s1 (i + 1)) (fun i => s2 (i + 1)) n

/-- `strlen` of a string kept as a list. -/
def strlen (s : List UInt8) : Nat := (cstr s).length

/-- The name a directory slot has: its bytes up to the first NUL, or all 32. -/
def effectiveName (d : Dentry) : List UInt8 := cstr d.filename

theorem int8_injective {a b : UInt8} (h : int8 a - int8 b = 0) : a = b := by
  have ha := a.toNat_lt
  have hb := b.toNat_lt
  apply UInt8.toNat_inj.mp
  unfold int8 at h
  split_ifs at h <;> omega

theorem strncmp_eq_zero_iff (s t : Nat → UInt8) (n : Nat) :
    strncmp s t n = 0 ↔ cstr (bytesAt s n) = cstr (bytesAt t n) := by
  induction n generalizing s t with
  | zero => exact ⟨fun _ => rfl, fun _ => rfl⟩
  | succ n ih =>
    rw [bytesAt_succ, bytesAt_succ, cstr_cons, cstr_cons, strncmp]
    by_cases hst : s 0 = t 0
    · by_cases h0 : s 0 = 0
      · rw [if_pos (Or.inr h0), if_pos h0, if_pos (hst ▸ h0), hst]
        simp
      · rw [if_neg (by simp [hst, hst ▸ h0]), if_neg h0, if_neg (hst ▸ h0), ih, hst]
        simp
    · rw [if_pos (Or.inl hst)]
      refine ⟨fun h => absurd (int8_injective h) hst, fun h => ?_⟩
      split_ifs at h with h1 h2 <;> simp_all

/-- The name `shell`. -/
def shellName : List UInt8 := [115, 104, 101, 108, 108]

namespace FileSystem

/-! ## The boot block -/

def dirEntryCount (fs : FileSystem) : Nat := load32 fs.mem fs.theBootBlock
def inodeCount (fs : FileSystem) : Nat := load32 fs.mem (fs.theBootBlock + 4)
def dataBlockCount (fs : FileSystem) : Nat := load32 fs.mem (fs.theBootBlock + 8)

/-- The directory entry stored at `a`. -/
def dentryAt (fs : FileSystem) (a : Nat) : Dentry where
  filename := bytesAt (fun j => fs.mem (u32 (a + j))) filenameLen
  filetype := load32 fs.mem (a + 32)
  inodeNum := load32 fs.mem (a + 36)

/-- `the_boot_block->direntries[i]`: the entries start after 64 bytes and take 64 each. -/
def direntry (fs : FileSystem) (i : Nat) : Dentry := fs.dentryAt (fs.theBootBlock + 64 + 64 * i)

/-- `init_file_system`. -/
def initFileSystem (fs : FileSystem) (fsStart fsEnd : Nat) : FileSystem × Int :=
  let absBlockCount := u32 (1 + load32 fs.mem (fsStart + 4) + load32 fs.mem (fsStart + 8))
  let fsSize := u32 (4096 * absBlockCount)
  if u32 (fsStart + fsSize) ≠ fsEnd then (fs, -1)
  else ({ fs with filesystemStart := fsStart, theBootBlock := fsStart }, 0)

/-! ## The directory -/

/-- The test `read_dentry_by_name` makes on each slot. -/
def nameMatches (fname : List UInt8) (d : Dentry) : Bool :=
  let fnameLen := strnlen (ofList d.filename) filenameLen
  strlen fname == fnameLen && strncmp (ofList fname) (ofList d.filename) fnameLen == 0

/-- `read_dentry_by_name`; `none` is its `-1`. -/
def readDentryByName (fs : FileSystem) (fname : List UInt8) : Option Dentry :=
  if fs.theBootBlock = 0 then none
  else if strlen fname = 0 then none
  else ((List.range numDirentries).map fs.direntry).find? (nameMatches fname)

/-- `read_dentry_by_index`. -/
def readDentryByIndex (fs : FileSystem) (index : Nat) : Option Dentry :=
  if fs.theBootBlock = 0 then none
  else if index ≥ fs.dirEntryCount then none
  else some (fs.direntry index)

/-- `file_open`: the inode it leaves in `global_inode_index`; `none` is its `-1`. -/
def fileOpen (fs : FileSystem) (filename : List UInt8) : Option Nat :=
  (((List.range' 1 numDirentries).map fun i => fs.dentryAt (fs.theBootBlock + 64 * i)).find?
    fun d => strncmp (ofList filename) (ofList d.filename) filenameLen == 0).map Dentry.inodeNum

/-- The 63 slots of the directory. -/
def slots (fs : FileSystem) : List Dentry := (List.range numDirentries).map fs.direntry

theorem filename_length (fs : FileSystem) (i : Nat) : (fs.direntry i).filename.length = 32 := by
  simp [direntry, dentryAt, bytesAt, filenameLen]

theorem filename_length_of_mem {fs : FileSystem} {d : Dentry} (h : d ∈ fs.slots) : d.filename.length = 32 := by
  obtain ⟨i, -, rfl⟩ := List.mem_map.mp h
  exact fs.filename_length i

/-- The length that the functions on names compute, at most 32. -/
theorem strnlen_filename {d : Dentry} (h : d.filename.length = 32) :
    strnlen (ofList d.filename) filenameLen = (effectiveName d).length := by
  have := cstr_length_le d.filename
  rw [strnlen_eq, cstr_bytesAt_ofList, List.take_of_length_le (by simp only [filenameLen]; omega)]
  rfl

theorem nameMatches_iff (fname : List UInt8) {d : Dentry} (h : d.filename.length = 32) :
    nameMatches fname d = true ↔ effectiveName d = cstr fname := by
  simp only [nameMatches, strnlen_filename h, Bool.and_eq_true, beq_iff_eq, strncmp_eq_zero_iff, cstr_bytesAt_ofList,
    strlen]
  constructor
  · rintro ⟨h1, h2⟩
    rw [← h1, List.take_length, h1] at h2
    exact (h2.trans List.take_length).symm
  · intro h1
    rw [← h1]
    exact ⟨rfl, rfl⟩

/-- The test `file_open` makes on each slot. -/
theorem fileOpen_test_iff {fname : List UInt8} (hf : strlen fname ≤ 32) {d : Dentry}
    (h : d.filename.length = 32) :
    (strncmp (ofList fname) (ofList d.filename) filenameLen == 0) = true ↔ effectiveName d = cstr fname := by
  have := cstr_length_le d.filename
  rw [beq_iff_eq, strncmp_eq_zero_iff, cstr_bytesAt_ofList, cstr_bytesAt_ofList,
    List.take_of_length_le (show (cstr fname).length ≤ filenameLen from hf),
    List.take_of_length_le (by simp only [filenameLen]; omega)]
  exact eq_comm

/-- What a directory means: the first slot that has the name, if the name is not empty. -/
def lookup (fs : FileSystem) (fname : List UInt8) : Option Dentry :=
  if fs.theBootBlock = 0 ∨ cstr fname = [] then none
  else fs.slots.find? fun d => effectiveName d = cstr fname

/-- `read_dentry_by_name` finds the first slot whose name is the given one. -/
theorem readDentryByName_eq (fs : FileSystem) (fname : List UInt8) :
    fs.readDentryByName fname = fs.lookup fname := by
  unfold readDentryByName lookup
  have hnil : strlen fname = 0 ↔ cstr fname = [] := List.length_eq_zero_iff
  by_cases h1 : fs.theBootBlock = 0
  · rw [if_pos h1, if_pos (Or.inl h1)]
  · by_cases h2 : strlen fname = 0
    · rw [if_neg h1, if_pos h2, if_pos (Or.inr (hnil.mp h2))]
    · rw [if_neg h1, if_neg h2, if_neg (by simp [h1, ← hnil, h2])]
      refine List.find?_congr fun d hd => ?_
      rw [Bool.eq_iff_iff, nameMatches_iff fname (filename_length_of_mem hd), decide_eq_true_iff]

/-- So does `file_open`, for a name that fits a slot. -/
theorem fileOpen_eq (fs : FileSystem) {fname : List UInt8} (hf : strlen fname ≤ 32) :
    fs.fileOpen fname =
      (fs.slots.find? fun d => effectiveName d = cstr fname).map Dentry.inodeNum := by
  unfold fileOpen
  have hslots : ((List.range' 1 numDirentries).map fun i => fs.dentryAt (fs.theBootBlock + 64 * i)) =
      fs.slots := by
    rw [slots, List.range_eq_range', List.range'_eq_map_range, List.range_eq_range'.symm, List.map_map]
    apply List.map_congr_left
    intro i _
    simp only [Function.comp, direntry]
    congr 1
    omega
  rw [hslots]
  congr 1
  refine List.find?_congr fun d hd => ?_
  rw [Bool.eq_iff_iff, fileOpen_test_iff hf (filename_length_of_mem hd), decide_eq_true_iff]

theorem lookup_eq_some {fs : FileSystem} {fname : List UInt8} {d : Dentry} (h : fs.lookup fname = some d) :
    d ∈ fs.slots ∧ effectiveName d = cstr fname ∧ cstr fname ≠ [] := by
  unfold lookup at h
  split_ifs at h with h0
  exact ⟨List.mem_of_find?_eq_some h, by simpa using List.find?_some h, fun hn => h0 (Or.inr hn)⟩

/-- What the first scan finds, `file_open` finds too. -/
theorem fileOpen_of_lookup {fs : FileSystem} {fname : List UInt8} {d : Dentry}
    (h : fs.lookup fname = some d) : fs.fileOpen fname = some d.inodeNum := by
  obtain ⟨hmem, hname, -⟩ := lookup_eq_some h
  have hlen : strlen fname ≤ 32 := by
    have := cstr_length_le d.filename
    rw [strlen, ← hname]
    exact this.trans (filename_length_of_mem hmem).le
  rw [fileOpen_eq fs hlen]
  unfold lookup at h
  split_ifs at h
  rw [h]
  rfl

/-! ## Data -/

/-- The address of an inode. -/
def inodeAddr (fs : FileSystem) (inode : Nat) : Nat := u32 (fs.theBootBlock + blockSize * (inode + 1))

/-- `inode->length`. -/
def inodeLength (fs : FileSystem) (inode : Nat) : Nat := load32 fs.mem (fs.inodeAddr inode)

/-- `inode->data_block_num[n]`, or the word that stands there when `n` is past the array. -/
def dataBlockNum (fs : FileSystem) (inode n : Nat) : Nat :=
  load32 fs.mem (fs.inodeAddr inode + 4 + 4 * n)

/-- The address of data block `b`: `start_datablocks + b * BLOCK_SIZE/sizeof(uint32_t)`, as a pointer to
words. -/
def datablockAddr (fs : FileSystem) (b : Nat) : Nat :=
  u32 (u32 (fs.theBootBlock + blockSize * (fs.inodeCount + 1)) + 4 * (u32 (b * blockSize) / 4))

/-- The byte of a word the loop of `read_data` extracts. -/
def wordByte (w offsetInAddress : Nat) : UInt8 :=
  if offsetInAddress = 0 then UInt8.ofNat (w &&& 0xFF)
  else if offsetInAddress = 1 then UInt8.ofNat ((w >>> 8) &&& 0xFF)
  else if offsetInAddress = 2 then UInt8.ofNat ((w >>> 16) &&& 0xFF)
  else UInt8.ofNat (w >>> 24)

/-- The variables of `read_data`'s loop besides the counter. -/
structure Cursor where
  positionInFile : Nat
  numDataBlock : Nat
  curDatablock : Nat

/-- The end of a round: on to the next word every fourth byte, on to the next block at a block's end. -/
def Cursor.next (fs : FileSystem) (inode bytesRead : Nat) (c : Cursor) : Cursor :=
  let position := if bytesRead % 4 = 3 then c.positionInFile + 1 else c.positionInFile
  if position ≥ blockSize / 4 then
    { positionInFile := 0
      numDataBlock := c.numDataBlock + 1
      curDatablock := fs.datablockAddr (fs.dataBlockNum inode (c.numDataBlock + 1)) }
  else { c with positionInFile := position }

/-- The loop of `read_data`, with `left` rounds to go: the value returned, and the bytes written to
`buf` so far followed by those still to come. -/
def readLoop (fs : FileSystem) (inode offset : Nat) : (left bytesRead : Nat) → Cursor → Nat × List UInt8
  | 0, bytesRead, _ => (bytesRead, [])
  | left + 1, bytesRead, c =>
    let byte := wordByte (load32 fs.mem (c.curDatablock + 4 * c.positionInFile)) (u32 (offset + bytesRead) % 4)
    let c := c.next fs inode bytesRead
    if c.numDataBlock > numDataBlocks - 1 then (0, [byte])
    else
      let rest := readLoop fs inode offset left (bytesRead + 1) c
      (rest.1, byte :: rest.2)

/-- `read_data`: the value returned and the bytes written to `buf` from its start. -/
def readData (fs : FileSystem) (inode offset : Nat) (bufNull : Bool) (length : Nat) : Nat × List UInt8 :=
  if fs.theBootBlock = 0 ∨ bufNull ∨ inode > u32 (fs.inodeCount + minusOne) then (minusOne, [])
  else if offset > fs.inodeLength inode then (0, [])
  else
    readLoop fs inode offset length 0
      { positionInFile := offset % blockSize / 4
        numDataBlock := offset / blockSize
        curDatablock := fs.datablockAddr (fs.dataBlockNum inode (offset / blockSize)) }

/-! ## A small image

One directory entry, `shell`, one inode of 28 bytes and one data block, loaded at 4096. -/

/-- The bytes of the small image that are not zero, by address. -/
def shellBytes : List (Nat × UInt8) :=
  [(4096, 1), (4100, 1), (4104, 1),
   (4160, 115), (4161, 104), (4162, 101), (4163, 108), (4164, 108), (4192, 2),
   (8192, 28), (12288, 0x7F), (12289, 69), (12290, 76), (12291, 70), (12313, 0x80), (12314, 0x04), (12315, 0x08)]

/-- The small image, accepted by `init_file_system`. -/
def shellImage : FileSystem :=
  { mem := fun a => (shellBytes.lookup a).getD 0, theBootBlock := 4096, filesystemStart := 4096,
    fsStartAddr := 4096 }

/-! ## What `read_data` reads -/

/-- Byte `p` of the file whose inode has number `inode`. -/
def fileByte (fs : FileSystem) (inode p : Nat) : UInt8 :=
  fs.mem (u32 (fs.datablockAddr (fs.dataBlockNum inode (p / blockSize)) + p % blockSize))

/-- The first `n` bytes of that file. -/
def fileBytes (fs : FileSystem) (inode n : Nat) : List UInt8 := (List.range n).map (fs.fileByte inode)

/-- The position of the byte that round `b` of the loop reads: the word moves on every fourth round, the
byte in the word follows the position in the file. -/
def readPos (offset b : Nat) : Nat := 4 * (offset / 4 + b / 4) + (offset + b) % 4

/-- The bytes `n` rounds of the loop read. -/
def readBytes (fs : FileSystem) (inode offset n : Nat) : List UInt8 :=
  (List.range n).map fun b => fs.fileByte inode (readPos offset b)

@[simp] theorem readBytes_length (fs : FileSystem) (inode offset n : Nat) :
    (fs.readBytes inode offset n).length = n := by
  simp [readBytes]

theorem wordByte_load32 (m : Nat → UInt8) (a : Nat) {j : Nat} (hj : j < 4) :
    wordByte (load32 m a) j = m (u32 (a + j)) := by
  have hmask : ∀ w : Nat, UInt8.ofNat (w &&& 0xFF) = UInt8.ofNat w := by
    intro w
    apply UInt8.toNat_inj.mp
    rw [UInt8.toNat_ofNat', UInt8.toNat_ofNat', Nat.and_two_pow_sub_one_eq_mod w 8, Nat.mod_mod]
  rw [← load32_byte m a hj, wordByte]
  simp only [hmask, Nat.shiftRight_eq_div_pow]
  obtain rfl | rfl | rfl | rfl : j = 0 ∨ j = 1 ∨ j = 2 ∨ j = 3 := by omega
  all_goals norm_num

theorem readPos_zero (offset : Nat) : readPos offset 0 = offset := by
  unfold readPos
  omega

/-- The block numbers of an inode last for a read while its words do. -/
theorem readPos_block_le_iff (offset n : Nat) :
    readPos offset n / blockSize ≤ 1022 ↔ offset / 4 + n / 4 < 1023 * (blockSize / 4) := by
  unfold readPos blockSize
  omega

/-- The cursor before round `b` of a read from `offset`. -/
def cursorAt (fs : FileSystem) (inode offset b : Nat) : Cursor where
  positionInFile := readPos offset b % blockSize / 4
  numDataBlock := readPos offset b / blockSize
  curDatablock := fs.datablockAddr (fs.dataBlockNum inode (readPos offset b / blockSize))

theorem cursorAt_zero (fs : FileSystem) (inode offset : Nat) :
    fs.cursorAt inode offset 0 =
      { positionInFile := offset % blockSize / 4
        numDataBlock := offset / blockSize
        curDatablock := fs.datablockAddr (fs.dataBlockNum inode (offset / blockSize)) } := by
  rw [cursorAt, readPos_zero]

theorem cursorAt_next (fs : FileSystem) (inode offset b : Nat) :
    (fs.cursorAt inode offset b).next fs inode b = fs.cursorAt inode offset (b + 1) := by
  have hpos : readPos offset (b + 1) / 4 = readPos offset b / 4 + if b % 4 = 3 then 1 else 0 := by
    unfold readPos
    split_ifs <;> omega
  unfold Cursor.next cursorAt blockSize
  dsimp only
  split_ifs at hpos ⊢ with h1 h2 h2
  · have hb : readPos offset b / 4096 + 1 = readPos offset (b + 1) / 4096 := by omega
    rw [hb]
    congr 1
    omega
  · have hb : readPos offset b / 4096 = readPos offset (b + 1) / 4096 := by omega
    rw [hb]
    congr 1
    omega
  · omega
  · have hb : readPos offset b / 4096 = readPos offset (b + 1) / 4096 := by omega
    rw [hb]
    congr 1
    omega

theorem readLoop_byte (fs : FileSystem) (inode offset b : Nat) :
    wordByte (load32 fs.mem ((fs.cursorAt inode offset b).curDatablock +
      4 * (fs.cursorAt inode offset b).positionInFile)) (u32 (offset + b) % 4) =
      fs.fileByte inode (readPos offset b) := by
  have hmod : u32 (offset + b) % 4 = readPos offset b % 4 := by
    unfold u32 readPos
    omega
  rw [wordByte_load32 _ _ (by omega), hmod, fileByte]
  unfold cursorAt blockSize
  dsimp only
  congr 2
  omega

/-- The loop in closed form: it runs to the end when it does not get past the last block number an inode
holds, and returns `0` when it does. -/
theorem readLoop_eq (fs : FileSystem) (inode offset : Nat) : ∀ left b : Nat,
    (left = 0 ∨ readPos offset (b + left) / blockSize ≤ 1022 →
      fs.readLoop inode offset left b (fs.cursorAt inode offset b) =
        (b + left, (List.range' b left).map fun i => fs.fileByte inode (readPos offset i))) ∧
    (left ≠ 0 → 1022 < readPos offset (b + left) / blockSize →
      (fs.readLoop inode offset left b (fs.cursorAt inode offset b)).1 = 0)
  | 0, b => ⟨fun _ => rfl, fun h => absurd rfl h⟩
  | left + 1, b => by
    obtain ⟨ih1, ih2⟩ := readLoop_eq fs inode offset left (b + 1)
    have hadd : b + 1 + left = b + (left + 1) := by omega
    have hmono : readPos offset (b + 1) / blockSize ≤ readPos offset (b + (left + 1)) / blockSize := by
      unfold readPos blockSize
      omega
    rw [readLoop]
    simp only [readLoop_byte, cursorAt_next]
    rw [show (fs.cursorAt inode offset (b + 1)).numDataBlock = readPos offset (b + 1) / blockSize from rfl]
    rw [hadd] at ih1 ih2
    constructor
    · intro h
      have hle := h.resolve_left (by omega)
      rw [if_neg (by simp only [numDataBlocks]; omega), ih1 (Or.inr hle), List.range'_succ]
      rfl
    · intro _ hlt
      split_ifs with hcut
      · rfl
      · by_cases hl : left = 0
        · subst hl
          rw [Nat.zero_add] at hlt
          exact absurd hlt hcut
        · exact ih2 hl hlt

/-! ## How `read_data` begins -/

/-- The test at the start of `read_data`. -/
def Refuses (fs : FileSystem) (inode : Nat) (bufNull : Bool) : Prop :=
  fs.theBootBlock = 0 ∨ bufNull = true ∨ inode > u32 (fs.inodeCount + minusOne)

theorem inode_gt_iff (fs : FileSystem) {inode : Nat} (hinode : inode < 2 ^ 32) :
    inode > u32 (fs.inodeCount + minusOne) ↔ 0 < fs.inodeCount ∧ fs.inodeCount ≤ inode := by
  have hcount : fs.inodeCount < 2 ^ 32 := load32_lt _ _
  unfold u32 minusOne
  omega

theorem not_refuses {fs : FileSystem} (hboot : fs.theBootBlock ≠ 0) {inode : Nat} (hinode : inode < fs.inodeCount) :
    ¬ fs.Refuses inode false := by
  have hcount : fs.inodeCount < 2 ^ 32 := load32_lt _ _
  rw [Refuses, inode_gt_iff fs (by omega)]
  simp only [hboot, Bool.false_eq_true, false_or]
  omega

section Outcomes
variable {fs : FileSystem} {inode offset : Nat} {bufNull : Bool}

theorem readData_of_refuses (h : fs.Refuses inode bufNull) (offset n : Nat) :
    fs.readData inode offset bufNull n = (minusOne, []) := by
  unfold Refuses at h
  rw [readData, if_pos h]

theorem readData_of_gt (h : ¬ fs.Refuses inode bufNull) (hoffset : fs.inodeLength inode < offset) (n : Nat) :
    fs.readData inode offset bufNull n = (0, []) := by
  unfold Refuses at h
  rw [readData, if_neg h, if_pos hoffset]

theorem readData_of_le (h : ¬ fs.Refuses inode bufNull) (hoffset : offset ≤ fs.inodeLength inode) (n : Nat) :
    fs.readData inode offset bufNull n = fs.readLoop inode offset n 0 (fs.cursorAt inode offset 0) := by
  unfold Refuses at h
  rw [readData, if_neg h, if_neg (by omega), cursorAt_zero]

end Outcomes

end FileSystem

end BasicOs
