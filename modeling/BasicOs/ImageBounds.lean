import BasicOs.FileData

/-!
# The bounds of the image

`init_file_system` accepts an image by its size, computed with 32-bit sums; `read_data` then goes where the image
sends it. What a call reads besides the inode's length is recorded by `readDataTraced`:

* `Access.blockNum i` : the word `inode->data_block_num[i]`, loaded as a block number;
* `Access.dataWord i a` : the word at `a`, in the block that number `i` of the inode names.

`readDataTraced_fst` says that the record changes nothing, `readData_inside_iff` for which calls all of it lies in
the image, `initFileSystem_sound_iff` when an accepted image is as large as its counts say.
-/

namespace BasicOs
open Bytes

namespace FileSystem

/-! ## Accepting an image -/

/-- The end of the image at `fsStart` that its counts give, without wrapping. -/
def imageEnd (fs : FileSystem) (fsStart : Nat) : Nat :=
  fsStart + blockSize * (1 + load32 fs.mem (fsStart + 4) + load32 fs.mem (fsStart + 8))

theorem initFileSystem_eq (fs : FileSystem) (fsStart fsEnd : Nat) :
    fs.initFileSystem fsStart fsEnd =
      if u32 (fs.imageEnd fsStart) ≠ fsEnd then (fs, -1)
      else ({ fs with filesystemStart := fsStart, theBootBlock := fsStart }, 0) := by
  have hsum : u32 (fsStart + u32 (4096 * u32 (1 + load32 fs.mem (fsStart + 4) + load32 fs.mem (fsStart + 8)))) =
      u32 (fs.imageEnd fsStart) := by
    unfold imageEnd u32 blockSize
    omega
  unfold initFileSystem
  dsimp only
  rw [hsum]

/-- What an accepted image is. -/
theorem initFileSystem_accepts {fs₀ fs : FileSystem} {fsStart fsEnd : Nat}
    (h : fs₀.initFileSystem fsStart fsEnd = (fs, 0)) :
    fs.theBootBlock = fsStart ∧ fs.mem = fs₀.mem ∧ fsEnd = u32 (fs.imageEnd fs.theBootBlock) := by
  rw [initFileSystem_eq] at h
  split_ifs at h with hend
  · cases (Prod.ext_iff.mp h).2
  · obtain rfl := (Prod.ext_iff.mp h).1
    exact ⟨rfl, rfl, (not_not.mp hend).symm⟩

/-- The `size` bytes at `a` lie in the module. -/
def InModule (fsStart fsEnd a size : Nat) : Prop := fsStart ≤ a ∧ a + size ≤ fsEnd

/-- The answer of `init_file_system` is right: an image it accepts is as large as its counts say, so that all its
blocks lie in the module, and an image it refuses changes nothing. -/
def AnswersRight (fs : FileSystem) (fsStart fsEnd : Nat) : Prop :=
  let r := fs.initFileSystem fsStart fsEnd
  (r.2 = 0 ∧ fs.imageEnd fsStart = fsEnd ∧
      (∀ i < r.1.inodeCount, InModule fsStart fsEnd (r.1.inodeAddr i) blockSize) ∧
      ∀ b < r.1.dataBlockCount, InModule fsStart fsEnd (r.1.datablockAddr b) blockSize) ∨
    r.2 = -1 ∧ r.1.theBootBlock = fs.theBootBlock ∧ r.1.filesystemStart = fs.filesystemStart

end FileSystem

open FileSystem

/-- **Image validation.** The answer is right exactly if the size does not wrap, or does not match. -/
theorem initFileSystem_sound_iff (fs : FileSystem) (fsStart : Nat) {fsEnd : Nat} (hend : fsEnd < 2 ^ 32) :
    fs.AnswersRight fsStart fsEnd ↔ fs.imageEnd fsStart < 2 ^ 32 ∨ u32 (fs.imageEnd fsStart) ≠ fsEnd := by
  unfold AnswersRight
  rw [initFileSystem_eq]
  by_cases hmatch : u32 (fs.imageEnd fsStart) ≠ fsEnd
  · rw [if_pos hmatch]
    exact ⟨fun _ => Or.inr hmatch, fun _ => Or.inr ⟨rfl, rfl, rfl⟩⟩
  · rw [if_neg hmatch]
    dsimp only
    constructor
    · rintro (⟨-, hexact, -, -⟩ | ⟨hneg, -⟩)
      · exact Or.inl (hexact ▸ hend)
      · cases hneg
    · intro h
      have hexact : fs.imageEnd fsStart = fsEnd := by
        have hlt := h.resolve_right hmatch
        rw [← not_not.mp hmatch, u32, Nat.mod_eq_of_lt hlt]
      refine Or.inl ⟨rfl, hexact, ?_, ?_⟩
      · intro i hi
        simp only [inodeCount, InModule, inodeAddr, imageEnd, u32, blockSize] at hi hexact ⊢
        omega
      · intro b hb
        simp only [dataBlockCount, InModule, datablockAddr_eq, inodeCount, imageEnd, u32, blockSize] at hb hexact ⊢
        omega

/-- The small image is accepted for what it is. -/
theorem initFileSystem_sound_iff_shell : 16384 < 2 ^ 32 ∧ shellImage.AnswersRight 4096 16384 :=
  ⟨by decide, (initFileSystem_sound_iff shellImage 4096 (by decide)).mpr (Or.inl (by decide +kernel))⟩

/-- An image that claims `2^20` inodes and one data block, 8 KB long. -/
def wrappedImage : FileSystem :=
  { shellImage with mem := fun a => ([(4096, 1), (4102, 16), (4104, 1)].lookup a).getD 0 }

/-- It is accepted. -/
theorem initFileSystem_wraps : 12288 < 2 ^ 32 ∧ (wrappedImage.initFileSystem 4096 12288).2 = 0 ∧
    wrappedImage.imageEnd 4096 ≠ 12288 ∧ ¬ wrappedImage.AnswersRight 4096 12288 := by
  have hanswer : (wrappedImage.initFileSystem 4096 12288).2 = 0 := by
    rw [initFileSystem_eq, if_neg (by decide +kernel)]
  have hend : wrappedImage.imageEnd 4096 ≠ 12288 := by decide +kernel
  refine ⟨by decide, hanswer, hend, ?_⟩
  rintro (⟨-, h, -, -⟩ | ⟨h, -⟩)
  · exact hend h
  · rw [hanswer] at h
    cases h

/-! ## What `read_data` reads -/

namespace FileSystem

/-- A word of the image that `read_data` reads after the inode's length. -/
inductive Access
  | blockNum (i : Nat)
  | dataWord (i a : Nat)
  deriving DecidableEq

/-- What a round of the loop reads: the data word, and a block number if it is at the end of its block. -/
def Cursor.accesses (fs : FileSystem) (inode bytesRead : Nat) (c : Cursor) : List Access :=
  let word := Access.dataWord c.numDataBlock (u32 (c.curDatablock + 4 * c.positionInFile))
  let num := (c.next fs inode bytesRead).numDataBlock
  if num = c.numDataBlock then [word] else [word, .blockNum num]

/-- The loop of `read_data`, with a record of what it reads. -/
def readLoopTraced (fs : FileSystem) (inode offset : Nat) :
    (left bytesRead : Nat) → Cursor → (Nat × List UInt8) × List Access
  | 0, bytesRead, _ => ((bytesRead, []), [])
  | left + 1, bytesRead, c =>
    let byte := wordByte (load32 fs.mem (c.curDatablock + 4 * c.positionInFile)) (u32 (offset + bytesRead) % 4)
    let used := c.accesses fs inode bytesRead
    let c := c.next fs inode bytesRead
    if c.numDataBlock > numDataBlocks - 1 then ((0, [byte]), used)
    else
      let rest := readLoopTraced fs inode offset left (bytesRead + 1) c
      ((rest.1.1, byte :: rest.1.2), used ++ rest.2)

/-- `read_data`, with a record of what it reads. -/
def readDataTraced (fs : FileSystem) (inode offset : Nat) (bufNull : Bool) (length : Nat) :
    (Nat × List UInt8) × List Access :=
  if fs.theBootBlock = 0 ∨ bufNull ∨ inode > u32 (fs.inodeCount + minusOne) then ((minusOne, []), [])
  else if offset > fs.inodeLength inode then ((0, []), [])
  else
    let r := readLoopTraced fs inode offset length 0
      { positionInFile := offset % blockSize / 4
        numDataBlock := offset / blockSize
        curDatablock := fs.datablockAddr (fs.dataBlockNum inode (offset / blockSize)) }
    (r.1, .blockNum (offset / blockSize) :: r.2)

theorem readLoopTraced_fst (fs : FileSystem) (inode offset left : Nat) : ∀ (bytesRead : Nat) (c : Cursor),
    (fs.readLoopTraced inode offset left bytesRead c).1 = fs.readLoop inode offset left bytesRead c := by
  induction left with
  | zero =>
    intro bytesRead c
    rfl
  | succ left ih =>
    intro bytesRead c
    rw [readLoopTraced, readLoop]
    dsimp only
    split_ifs
    · rfl
    · rw [ih]

/-- The record changes nothing. -/
theorem readDataTraced_fst (fs : FileSystem) (inode offset : Nat) (bufNull : Bool) (length : Nat) :
    (fs.readDataTraced inode offset bufNull length).1 = fs.readData inode offset bufNull length := by
  unfold readDataTraced readData
  split_ifs
  · rfl
  · rfl
  · exact readLoopTraced_fst fs inode offset length 0 _

/-- The address of the word that holds byte `p` of a file. -/
def wordAddr (fs : FileSystem) (inode p : Nat) : Nat :=
  u32 (fs.datablockAddr (fs.dataBlockNum inode (p / blockSize)) + 4 * (p % blockSize / 4))

/-- What round `b` of a read from `offset` reads. -/
theorem mem_accesses_iff (fs : FileSystem) (inode offset b : Nat) (x : Access) :
    x ∈ (fs.cursorAt inode offset b).accesses fs inode b ↔
      x = .dataWord (readPos offset b / blockSize) (fs.wordAddr inode (readPos offset b)) ∨
        readPos offset (b + 1) / blockSize ≠ readPos offset b / blockSize ∧
          x = .blockNum (readPos offset (b + 1) / blockSize) := by
  unfold Cursor.accesses
  rw [cursorAt_next]
  dsimp only [cursorAt, wordAddr]
  split_ifs with h
  · simp [h]
  · simp [h]

theorem readPos_block_mono (offset : Nat) {i j : Nat} (h : i ≤ j) :
    readPos offset i / blockSize ≤ readPos offset j / blockSize := by
  unfold readPos blockSize
  omega

/-- Everything the loop reads belongs to one of its rounds. -/
theorem mem_readLoopTraced {fs : FileSystem} {inode offset : Nat} {x : Access} : ∀ {left b : Nat},
    x ∈ (fs.readLoopTraced inode offset left b (fs.cursorAt inode offset b)).2 →
      ∃ i, b ≤ i ∧ i < b + left ∧ x ∈ (fs.cursorAt inode offset i).accesses fs inode i
  | 0, b, h => by cases h
  | left + 1, b, h => by
    rw [readLoopTraced] at h
    dsimp only at h
    split_ifs at h with hcut
    · exact ⟨b, le_rfl, by omega, h⟩
    · rcases List.mem_append.mp h with h | h
      · exact ⟨b, le_rfl, by omega, h⟩
      · rw [cursorAt_next] at h
        obtain ⟨i, h1, h2, hx⟩ := mem_readLoopTraced h
        exact ⟨i, by omega, by omega, hx⟩

/-- A loop that runs to its end reads what its rounds read. -/
theorem mem_readLoopTraced_of_fits {fs : FileSystem} {inode offset : Nat} {x : Access} : ∀ {left b i : Nat},
    readPos offset (b + left) / blockSize ≤ 1022 → b ≤ i → i < b + left →
      x ∈ (fs.cursorAt inode offset i).accesses fs inode i →
      x ∈ (fs.readLoopTraced inode offset left b (fs.cursorAt inode offset b)).2
  | 0, b, i, _, h1, h2, _ => by omega
  | left + 1, b, i, hfit, h1, h2, hx => by
    have hnext : ¬ (fs.cursorAt inode offset (b + 1)).numDataBlock > numDataBlocks - 1 := by
      have := readPos_block_mono offset (show b + 1 ≤ b + (left + 1) by omega)
      simp only [cursorAt, numDataBlocks]
      omega
    rw [readLoopTraced]
    dsimp only
    rw [cursorAt_next, if_neg hnext]
    apply List.mem_append.mpr
    rcases Nat.eq_or_lt_of_le h1 with rfl | hlt
    · exact Or.inl hx
    · rw [show b + (left + 1) = b + 1 + left by omega] at hfit h2
      exact Or.inr (mem_readLoopTraced_of_fits hfit hlt h2 hx)

/-- A loop that does not has loaded a block number past the last. -/
theorem mem_readLoopTraced_of_cut (fs : FileSystem) (inode : Nat) {offset : Nat} : ∀ {left b : Nat},
    readPos offset b / blockSize ≤ 1022 → 1022 < readPos offset (b + left) / blockSize →
      ∃ i, 1022 < i ∧ .blockNum i ∈ (fs.readLoopTraced inode offset left b (fs.cursorAt inode offset b)).2
  | 0, b, hb, hcut => by
    rw [Nat.add_zero] at hcut
    omega
  | left + 1, b, hb, hcut => by
    rw [readLoopTraced]
    dsimp only
    rw [cursorAt_next]
    by_cases hnext : 1022 < readPos offset (b + 1) / blockSize
    · rw [if_pos (by exact hnext)]
      refine ⟨_, hnext, (mem_accesses_iff _ _ _ _ _).mpr (Or.inr ⟨by omega, rfl⟩)⟩
    · rw [if_neg (by exact hnext)]
      rw [show b + (left + 1) = b + 1 + left by omega] at hcut
      obtain ⟨i, hi, hmem⟩ := mem_readLoopTraced_of_cut fs inode (Nat.not_lt.mp hnext) hcut
      exact ⟨i, hi, List.mem_append.mpr (Or.inr hmem)⟩

/-! ## Staying in the image -/

/-- A call of `read_data` on an image up to `fsEnd` stays in it: it takes block numbers from the 1023 of the inode
and data from the image, and returns `-1` when the inode does not exist, its length is too large, or a block number
it would follow is. -/
structure ReadInside (fs : FileSystem) (fsEnd inode offset : Nat) (bufNull : Bool) (n : Nat) : Prop where
  blockNums : ∀ i, .blockNum i ∈ (fs.readDataTraced inode offset bufNull n).2 → i < numDataBlocks
  words : ∀ i a, .dataWord i a ∈ (fs.readDataTraced inode offset bufNull n).2 →
    InModule fs.theBootBlock fsEnd a 4
  rejects : (fs.inodeCount ≤ inode ∨ numDataBlocks * blockSize < fs.inodeLength inode ∨
      ∃ i a, .dataWord i a ∈ (fs.readDataTraced inode offset bufNull n).2 ∧
        fs.dataBlockCount ≤ fs.dataBlockNum inode i) →
    (fs.readDataTraced inode offset bufNull n).1.1 = minusOne

/-- Data block `b` is one of the image: there are more than `b` of them, and where the counts wrap, its place among
the `2^20` blocks of the address space is before the image's end. -/
def BlockHeld (fs : FileSystem) (b : Nat) : Prop :=
  b < fs.dataBlockCount ∧
    (1 + fs.inodeCount + b) % 2 ^ 20 < (1 + fs.inodeCount + fs.dataBlockCount) % 2 ^ 20 ∧
    fs.theBootBlock + blockSize * ((1 + fs.inodeCount + fs.dataBlockCount) % 2 ^ 20) < 2 ^ 32

/-- When the counts do not wrap, being below the count is all. -/
theorem blockHeld_iff {fs : FileSystem} (h : fs.imageEnd fs.theBootBlock < 2 ^ 32) (b : Nat) :
    fs.BlockHeld b ↔ b < fs.dataBlockCount := by
  unfold BlockHeld
  simp only [imageEnd, blockSize, inodeCount, dataBlockCount] at h ⊢
  omega

theorem wordAddr_inside_iff {fs : FileSystem} {fsEnd : Nat} (hend : fsEnd = u32 (fs.imageEnd fs.theBootBlock))
    (inode p : Nat) (hlt : fs.dataBlockNum inode (p / blockSize) < fs.dataBlockCount) :
    InModule fs.theBootBlock fsEnd (fs.wordAddr inode p) 4 ↔
      fs.BlockHeld (fs.dataBlockNum inode (p / blockSize)) := by
  unfold BlockHeld InModule wordAddr
  rw [datablockAddr_eq, u32_u32_add, hend]
  generalize fs.dataBlockNum inode (p / blockSize) = b at *
  simp only [imageEnd, inodeCount, dataBlockCount] at hlt ⊢
  generalize load32 fs.mem (fs.theBootBlock + 4) = N
  generalize load32 fs.mem (fs.theBootBlock + 8) = D at *
  unfold u32 blockSize
  omega

/-- The loop does not return `-1`: it would have run out of block numbers before. -/
theorem readLoop_ne_minusOne (fs : FileSystem) (inode offset n : Nat) :
    (fs.readLoop inode offset n 0 (fs.cursorAt inode offset 0)).1 ≠ minusOne := by
  have hloop := fs.readLoop_eq inode offset n 0
  rw [Nat.zero_add] at hloop
  by_cases hfit : n = 0 ∨ readPos offset n / blockSize ≤ 1022
  · rw [hloop.1 hfit]
    unfold minusOne
    unfold readPos blockSize at hfit
    dsimp only
    omega
  · rw [hloop.2 (fun h => hfit (Or.inl h)) (by omega)]
    decide

section Inside
variable {fs : FileSystem} {inode offset n fsEnd : Nat} {bufNull : Bool}

theorem readDataTraced_of_refuses (h : fs.Refuses inode bufNull) (offset n : Nat) :
    fs.readDataTraced inode offset bufNull n = ((minusOne, []), []) := by
  unfold Refuses at h
  rw [readDataTraced, if_pos h]

theorem readDataTraced_of_gt (h : ¬ fs.Refuses inode bufNull) (hoffset : fs.inodeLength inode < offset) (n : Nat) :
    fs.readDataTraced inode offset bufNull n = ((0, []), []) := by
  unfold Refuses at h
  rw [readDataTraced, if_neg h, if_pos hoffset]

theorem readDataTraced_of_le (h : ¬ fs.Refuses inode bufNull) (hoffset : offset ≤ fs.inodeLength inode) (n : Nat) :
    fs.readDataTraced inode offset bufNull n =
      let r := fs.readLoopTraced inode offset n 0 (fs.cursorAt inode offset 0)
      (r.1, .blockNum (offset / blockSize) :: r.2) := by
  unfold Refuses at h
  rw [readDataTraced, if_neg h, if_neg (by omega), cursorAt_zero]

/-- A call that is not refused does not return `-1`. -/
theorem readDataTraced_ne_minusOne (h : ¬ fs.Refuses inode bufNull) (offset n : Nat) :
    (fs.readDataTraced inode offset bufNull n).1.1 ≠ minusOne := by
  rw [readDataTraced_fst]
  by_cases hoffset : fs.inodeLength inode < offset
  · rw [readData_of_gt h hoffset]
    decide
  · rw [readData_of_le h (Nat.not_lt.mp hoffset)]
    exact readLoop_ne_minusOne fs inode offset n

theorem readInside_of_nil (h : (fs.readDataTraced inode offset bufNull n).2 = [])
    (hrejects : fs.inodeCount ≤ inode ∨ numDataBlocks * blockSize < fs.inodeLength inode →
      (fs.readDataTraced inode offset bufNull n).1.1 = minusOne) :
    fs.ReadInside fsEnd inode offset bufNull n := by
  refine ⟨?_, ?_, ?_⟩
  · intro i hi
    rw [h] at hi
    cases hi
  · intro i a hi
    rw [h] at hi
    cases hi
  · rintro (h1 | h1 | ⟨i, a, hi, -⟩)
    · exact hrejects (Or.inl h1)
    · exact hrejects (Or.inr h1)
    · rw [h] at hi
      cases hi

/-- What a call that gets to its loop reads. -/
theorem mem_readDataTraced {x : Access} (h : ¬ fs.Refuses inode bufNull) (hoffset : offset ≤ fs.inodeLength inode)
    (hx : x ∈ (fs.readDataTraced inode offset bufNull n).2) :
    (∃ i ≤ n, x = .blockNum (readPos offset i / blockSize)) ∨
      ∃ b < n, x = .dataWord (readPos offset b / blockSize) (fs.wordAddr inode (readPos offset b)) := by
  rw [readDataTraced_of_le h hoffset] at hx
  rcases List.mem_cons.mp hx with rfl | hx
  · refine Or.inl ⟨0, Nat.zero_le n, ?_⟩
    rw [readPos_zero]
  · obtain ⟨i, -, hi, hx⟩ := mem_readLoopTraced hx
    rw [Nat.zero_add] at hi
    rcases (mem_accesses_iff _ _ _ _ _).mp hx with hx | ⟨-, hx⟩
    · exact Or.inr ⟨i, hi, hx⟩
    · exact Or.inl ⟨i + 1, hi, hx⟩

/-- The data words it reads while block numbers last. -/
theorem dataWord_mem_readDataTraced (h : ¬ fs.Refuses inode bufNull) (hoffset : offset ≤ fs.inodeLength inode)
    (hfit : readPos offset n / blockSize ≤ 1022) {b : Nat} (hb : b < n) :
    .dataWord (readPos offset b / blockSize) (fs.wordAddr inode (readPos offset b)) ∈
      (fs.readDataTraced inode offset bufNull n).2 := by
  rw [readDataTraced_of_le h hoffset]
  apply List.mem_cons_of_mem
  apply mem_readLoopTraced_of_fits (by rwa [Nat.zero_add]) (Nat.zero_le b) (by omega)
  exact (mem_accesses_iff _ _ _ _ _).mpr (Or.inl rfl)

/-- When they do not last, the call loads one too many. -/
theorem blockNum_mem_readDataTraced (h : ¬ fs.Refuses inode bufNull) (hoffset : offset ≤ fs.inodeLength inode)
    (hcut : 1022 < readPos offset n / blockSize) :
    ∃ i, 1022 < i ∧ .blockNum i ∈ (fs.readDataTraced inode offset bufNull n).2 := by
  rw [readDataTraced_of_le h hoffset]
  by_cases hfirst : 1022 < offset / blockSize
  · exact ⟨_, hfirst, List.mem_cons_self⟩
  · have hstart : readPos offset 0 / blockSize ≤ 1022 := by
      rw [readPos_zero]
      omega
    have hlast : 1022 < readPos offset (0 + n) / blockSize := by rwa [Nat.zero_add]
    obtain ⟨i, hi, hmem⟩ := mem_readLoopTraced_of_cut fs inode hstart hlast
    exact ⟨i, hi, List.mem_cons_of_mem _ hmem⟩

variable (h : ¬ fs.Refuses inode bufNull) (hend : fsEnd = u32 (fs.imageEnd fs.theBootBlock))
include h

/-- A call that stays in the image is for an inode of it. -/
theorem ReadInside.inode_lt (hin : fs.ReadInside fsEnd inode offset bufNull n) :
    inode < fs.inodeCount ∧ fs.inodeLength inode ≤ numDataBlocks * blockSize := by
  have hne := readDataTraced_ne_minusOne h offset n
  constructor
  · by_contra hle
    exact hne (hin.rejects (Or.inl (Nat.not_lt.mp hle)))
  · by_contra hgt
    exact hne (hin.rejects (Or.inr (Or.inl (Nat.not_le.mp hgt))))

include hend

/-- It keeps to the block numbers of the inode, and follows only numbers of blocks that the image has. -/
theorem ReadInside.held (hin : fs.ReadInside fsEnd inode offset bufNull n)
    (hoffset : offset ≤ fs.inodeLength inode) :
    readPos offset n / blockSize ≤ 1022 ∧
      ∀ b < n, fs.BlockHeld (fs.dataBlockNum inode (readPos offset b / blockSize)) := by
  have hfit : readPos offset n / blockSize ≤ 1022 := by
    by_contra hcut
    obtain ⟨i, hi, hmem⟩ := blockNum_mem_readDataTraced h hoffset (Nat.not_le.mp hcut)
    have hlt := hin.blockNums i hmem
    unfold numDataBlocks at hlt
    omega
  refine ⟨hfit, ?_⟩
  intro b hb
  have hmem := dataWord_mem_readDataTraced h hoffset hfit hb
  have hblock : fs.dataBlockNum inode (readPos offset b / blockSize) < fs.dataBlockCount := by
    by_contra hge
    exact readDataTraced_ne_minusOne h offset n (hin.rejects (Or.inr (Or.inr ⟨_, _, hmem, Nat.not_lt.mp hge⟩)))
  exact (wordAddr_inside_iff hend inode _ hblock).mp (hin.words _ _ hmem)

theorem readInside_of_held (hoffset : offset ≤ fs.inodeLength inode) (hinode : inode < fs.inodeCount)
    (hlength : fs.inodeLength inode ≤ numDataBlocks * blockSize) (hfit : readPos offset n / blockSize ≤ 1022)
    (hheld : ∀ b < n, fs.BlockHeld (fs.dataBlockNum inode (readPos offset b / blockSize))) :
    fs.ReadInside fsEnd inode offset bufNull n := by
  refine ⟨?_, ?_, ?_⟩
  · intro i hmem
    rcases mem_readDataTraced h hoffset hmem with ⟨j, hj, hx⟩ | ⟨b, -, hx⟩
    · cases hx
      have := readPos_block_mono offset hj
      unfold numDataBlocks
      omega
    · cases hx
  · intro i a hmem
    rcases mem_readDataTraced h hoffset hmem with ⟨j, -, hx⟩ | ⟨b, hb, hx⟩
    · cases hx
    · cases hx
      exact (wordAddr_inside_iff hend inode _ (hheld b hb).1).mpr (hheld b hb)
  · rintro (h' | h' | ⟨i, a, hmem, hge⟩)
    · omega
    · omega
    · rcases mem_readDataTraced h hoffset hmem with ⟨j, -, hx⟩ | ⟨b, hb, hx⟩
      · cases hx
      · cases hx
        exact absurd (hheld b hb).1 (Nat.not_lt.mpr hge)

end Inside

end FileSystem

/-- **`read_data` and the bounds of the image.** A call on an accepted image stays in it exactly if it is refused, or
the inode is one of the image with a length it can have and, when the call gets to its loop, that loop keeps to the
block numbers of the inode and follows only numbers of blocks that the image has. -/
theorem readData_inside_iff {fs₀ fs : FileSystem} {fsStart fsEnd : Nat}
    (haccept : fs₀.initFileSystem fsStart fsEnd = (fs, 0)) {inode : Nat} (hinode : inode < 2 ^ 32) (offset n : Nat)
    (bufNull : Bool) :
    fs.ReadInside fsEnd inode offset bufNull n ↔
      fsStart = 0 ∨ bufNull = true ∨ (0 < fs.inodeCount ∧ fs.inodeCount ≤ inode) ∨
        (inode < fs.inodeCount ∧ fs.inodeLength inode ≤ 1023 * blockSize ∧
          (fs.inodeLength inode < offset ∨ offset / 4 + n / 4 < 1023 * (blockSize / 4) ∧
            ∀ b < n, fs.BlockHeld (fs.dataBlockNum inode (readPos offset b / blockSize)))) := by
  obtain ⟨hboot, -, hend⟩ := initFileSystem_accepts haccept
  rw [← hboot, ← fs.inode_gt_iff hinode, ← readPos_block_le_iff]
  by_cases hrefuses : fs.Refuses inode bufNull
  · have hread := readDataTraced_of_refuses hrefuses offset n
    constructor
    · intro _
      rcases hrefuses with h | h | h
      · exact Or.inl h
      · exact Or.inr (Or.inl h)
      · exact Or.inr (Or.inr (Or.inl h))
    · intro _
      apply readInside_of_nil
      · rw [hread]
      · intro _
        rw [hread]
  · constructor
    · intro h
      refine Or.inr (Or.inr (Or.inr ⟨(h.inode_lt hrefuses).1, (h.inode_lt hrefuses).2, ?_⟩))
      by_cases hoffset : fs.inodeLength inode < offset
      · exact Or.inl hoffset
      · exact Or.inr (h.held hrefuses hend (Nat.not_lt.mp hoffset))
    · rintro (h | h | h | ⟨hlt, hlength, h⟩)
      · exact absurd (Or.inl h) hrefuses
      · exact absurd (Or.inr (Or.inl h)) hrefuses
      · exact absurd (Or.inr (Or.inr h)) hrefuses
      · by_cases hoffset : fs.inodeLength inode < offset
        · apply readInside_of_nil
          · rw [readDataTraced_of_gt hrefuses hoffset]
          · unfold numDataBlocks
            omega
        · obtain ⟨hfit, hheld⟩ := h.resolve_left hoffset
          exact readInside_of_held hrefuses hend (Nat.not_lt.mp hoffset) hlt hlength hfit hheld

theorem shellImage_accepted : shellImage.initFileSystem 4096 16384 = (shellImage, 0) := by
  rw [initFileSystem_eq, if_neg (by decide +kernel)]
  rfl

/-- All of `shell`, in the small image. -/
theorem readData_inside_iff_shell : shellImage.initFileSystem 4096 16384 = (shellImage, 0) ∧ 0 < 2 ^ 32 ∧
    shellImage.ReadInside 16384 0 0 false 28 := by
  refine ⟨shellImage_accepted, by decide, ?_⟩
  apply (readData_inside_iff shellImage_accepted (by decide) 0 28 false).mpr
  refine Or.inr (Or.inr (Or.inr ⟨by decide +kernel, by decide +kernel, Or.inr ⟨by decide, ?_⟩⟩))
  intro b hb
  rw [blockHeld_iff (by decide +kernel)]
  revert b
  decide +kernel

/-- The small image with block number 5 in its inode, where it has one data block. -/
def strayImage : FileSystem := { shellImage with mem := Function.update shellImage.mem 8196 5 }

/-- It is accepted, and the first byte of `shell` is read from beyond its end. -/
theorem readData_strays : strayImage.initFileSystem 4096 16384 = (strayImage, 0) ∧
    .dataWord 0 32768 ∈ (strayImage.readDataTraced 0 0 false 1).2 ∧
    (strayImage.readData 0 0 false 1).1 = 1 ∧ ¬ strayImage.ReadInside 16384 0 0 false 1 := by
  have hmem : .dataWord 0 32768 ∈ (strayImage.readDataTraced 0 0 false 1).2 := by decide +kernel
  refine ⟨?_, hmem, by decide +kernel, ?_⟩
  · rw [initFileSystem_eq, if_neg (by decide +kernel)]
    rfl
  · intro h
    have := (h.words 0 32768 hmem).2
    omega

end BasicOs
