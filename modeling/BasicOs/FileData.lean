import BasicOs.FileReads

/-!
# What `read_data` reads, at every offset

The bytes of a file lie in its data blocks, in the order of the inode's block numbers (`blockByte`). A call of
`read_data` for bytes that the file has returns them, except that

* the word it reads moves on with the number of bytes read, so that at an offset that is not a multiple of four
  the bytes after a word's end come from the word before (`readPos`);
* the block number after the last one an inode holds ends the loop with `0`, also when it is not needed.

`readData_content_iff` says for which calls neither shows. The length of the file is looked at once, before the
loop: `readData_stopsAtEnd_iff` says which calls stop at the end of the file all the same.
-/

namespace BasicOs
open Bytes

namespace FileSystem

/-- Byte `j` of data block `b`: the blocks follow the boot block and the inodes. -/
def blockByte (fs : FileSystem) (b j : Nat) : UInt8 :=
  fs.mem (u32 (fs.theBootBlock + blockSize * (1 + fs.inodeCount + b) + j))

theorem datablockAddr_eq (fs : FileSystem) (b : Nat) :
    fs.datablockAddr b = u32 (fs.theBootBlock + blockSize * (1 + fs.inodeCount + b)) := by
  unfold datablockAddr u32 blockSize
  omega

theorem fileByte_eq (fs : FileSystem) (inode p : Nat) :
    fs.fileByte inode p = fs.blockByte (fs.dataBlockNum inode (p / blockSize)) (p % blockSize) := by
  rw [fileByte, blockByte, datablockAddr_eq, u32_u32_add]

/-- A read of `n` bytes at `offset` is right: the loop does not end at the last block number, and wherever it is a
word behind the file has the same byte there. -/
def ReadFits (fs : FileSystem) (inode offset n : Nat) : Prop :=
  ¬ (0 < n ∧ offset % 4 = 0 ∧ offset + n = 1023 * blockSize) ∧
    ∀ b < n, 4 ≤ offset % 4 + b % 4 → fs.fileByte inode (offset + b) = fs.fileByte inode (offset + b - 4)

/-- The call gets past its tests. -/
theorem readData_eq {fs : FileSystem} (hboot : fs.theBootBlock ≠ 0) {inode offset : Nat}
    (hinode : inode < fs.inodeCount) (hoffset : offset ≤ fs.inodeLength inode) (n : Nat) :
    fs.readData inode offset false n = fs.readLoop inode offset n 0 (fs.cursorAt inode offset 0) :=
  readData_of_le (not_refuses hboot hinode) hoffset n

theorem readData_of_fits {fs : FileSystem} (hboot : fs.theBootBlock ≠ 0) {inode offset n : Nat}
    (hinode : inode < fs.inodeCount) (hoffset : offset ≤ fs.inodeLength inode)
    (hfit : n = 0 ∨ readPos offset n / blockSize ≤ 1022) :
    fs.readData inode offset false n = (n, fs.readBytes inode offset n) := by
  have hloop := (fs.readLoop_eq inode offset n 0).1 (by rwa [Nat.zero_add])
  rw [readData_eq hboot hinode hoffset, hloop, Nat.zero_add, ← List.range_eq_range']
  rfl

end FileSystem

open FileSystem

/-- **`read_data` at every offset.** For bytes that a file of at most 1023 blocks has, the call returns their
number and stores them exactly if it fits. -/
theorem readData_content_iff {fs : FileSystem} (hboot : fs.theBootBlock ≠ 0) {inode offset n : Nat}
    (hinode : inode < fs.inodeCount) (hlen : offset + n ≤ fs.inodeLength inode)
    (hmax : fs.inodeLength inode ≤ 1023 * blockSize) :
    ((fs.readData inode offset false n).1 = n ∧ ∀ k < n, (fs.readData inode offset false n).2[k]? =
        some (fs.blockByte (fs.dataBlockNum inode ((offset + k) / blockSize)) ((offset + k) % blockSize))) ↔
      fs.ReadFits inode offset n := by
  simp only [← fileByte_eq]
  have hcut : (n = 0 ∨ readPos offset n / blockSize ≤ 1022) ↔
      ¬ (0 < n ∧ offset % 4 = 0 ∧ offset + n = 1023 * blockSize) := by
    unfold readPos blockSize at *
    omega
  unfold ReadFits
  rw [← hcut]
  by_cases hfit : n = 0 ∨ readPos offset n / blockSize ≤ 1022
  · rw [readData_of_fits hboot hinode (by omega) hfit]
    refine ⟨fun h => ⟨hfit, (readBytes_eq_iff _ _ _ _).mp ?_⟩, fun h => ⟨rfl, fun k hk => ?_⟩⟩
    · apply List.ext_getElem?
      intro k
      by_cases hk : k < n
      · rw [h.2 k hk]
        simp [hk]
      · simp [readBytes, hk]
    · rw [(readBytes_eq_iff _ _ _ _).mpr h.2]
      simp [hk]
  · have hzero := (fs.readLoop_eq inode offset n 0).2 (fun h => hfit (Or.inl h)) (by rw [Nat.zero_add]; omega)
    rw [readData_eq hboot hinode (by omega)]
    refine ⟨fun h => ?_, fun h => absurd h.1 hfit⟩
    rw [hzero] at h
    exact absurd (Or.inl h.1.symm) hfit

/-- The whole of `shell`, from its start. -/
theorem readData_content_iff_shell : shellImage.theBootBlock ≠ 0 ∧ 0 < shellImage.inodeCount ∧
    0 + 28 ≤ shellImage.inodeLength 0 ∧ (shellImage.readData 0 0 false 28).1 = 28 ∧
    ∀ k < 28, (shellImage.readData 0 0 false 28).2[k]? =
      some (shellImage.blockByte (shellImage.dataBlockNum 0 ((0 + k) / blockSize)) ((0 + k) % blockSize)) := by
  have hcount : 0 < shellImage.inodeCount := by decide +kernel
  have hlength : shellImage.inodeLength 0 = 28 := by decide +kernel
  refine ⟨by decide, hcount, by omega, ?_⟩
  refine (readData_content_iff (by decide) hcount (by omega) (by rw [hlength]; decide)).mpr ⟨by decide, ?_⟩
  intro b hb h4
  omega

/-- Four bytes of `shell` from offset 1: the fourth is byte 0 of the file and not byte 4. -/
theorem readData_word_behind : WellFormed shellImage ∧ shellImage.theBootBlock ≠ 0 ∧ 0 < shellImage.inodeCount ∧
    1 + 4 ≤ shellImage.inodeLength 0 ∧ shellImage.inodeLength 0 ≤ 1023 * blockSize ∧
    (shellImage.readData 0 1 false 4).2[3]? = some 0x7F ∧
    shellImage.blockByte (shellImage.dataBlockNum 0 ((1 + 3) / blockSize)) ((1 + 3) % blockSize) = 0 := by
  refine ⟨shellImage_wellFormed, ?_⟩
  decide +kernel

/-! ## The end of the file -/

namespace FileSystem

/-- The loop stores something in every round. -/
theorem readLoop_ne_nil (fs : FileSystem) (inode offset left b : Nat) (c : Cursor) :
    (fs.readLoop inode offset (left + 1) b c).2 ≠ [] := by
  rw [readLoop]
  dsimp only
  split_ifs <;> simp

/-- A call of `read_data` stops at the end of the file: it returns at most what the file has from `offset` on, that
many bytes are stored, and no byte of the buffer after them changes. -/
structure StopsAtEnd (fs : FileSystem) (inode offset n : Nat) : Prop where
  le : (fs.readData inode offset false n).1 ≤ fs.inodeLength inode - offset
  count : (fs.readData inode offset false n).2.length = (fs.readData inode offset false n).1
  frame : ∀ (m : Nat → UInt8) (buf a : Nat), buf + (fs.readData inode offset false n).1 ≤ a →
    storeAll m buf (fs.readData inode offset false n).2 a = m a

theorem stopsAtEnd_of_count {fs : FileSystem} {inode offset n : Nat}
    (hle : (fs.readData inode offset false n).1 ≤ fs.inodeLength inode - offset)
    (hcount : (fs.readData inode offset false n).2.length = (fs.readData inode offset false n).1) :
    fs.StopsAtEnd inode offset n := by
  refine ⟨hle, hcount, ?_⟩
  intro m buf a ha
  rw [storeAll, if_neg (by omega)]

end FileSystem

/-- **`read_data` at the end of a file.** A call stops there exactly if it starts past it, or asks for nothing, or
asks only for bytes that the file has and does not get to the end of the last block an inode can name. -/
theorem readData_stopsAtEnd_iff {fs : FileSystem} (hboot : fs.theBootBlock ≠ 0) {inode : Nat}
    (hinode : inode < fs.inodeCount) (offset n : Nat) :
    fs.StopsAtEnd inode offset n ↔
      fs.inodeLength inode < offset ∨ n = 0 ∨
        (offset + n ≤ fs.inodeLength inode ∧ offset / 4 + n / 4 < 1023 * (blockSize / 4)) := by
  by_cases hoffset : fs.inodeLength inode < offset
  · have hread := readData_of_gt (not_refuses hboot hinode) hoffset n
    refine ⟨fun _ => Or.inl hoffset, fun _ => stopsAtEnd_of_count ?_ ?_⟩
    · rw [hread]
      exact Nat.zero_le _
    · rw [hread]
      rfl
  · have hwords := readPos_block_le_iff offset n
    by_cases hfit : n = 0 ∨ readPos offset n / blockSize ≤ 1022
    · have hread := readData_of_fits hboot hinode (Nat.not_lt.mp hoffset) hfit
      have hle : fs.StopsAtEnd inode offset n ↔ n ≤ fs.inodeLength inode - offset := by
        constructor
        · intro h
          have := h.le
          rwa [hread] at this
        · intro h
          apply stopsAtEnd_of_count
          · rwa [hread]
          · rw [hread, readBytes_length]
      rw [hle]
      omega
    · -- the loop ends early: bytes are stored, and `0` is returned
      obtain ⟨left, rfl⟩ : ∃ left, n = left + 1 := ⟨n - 1, by omega⟩
      have hzero := (fs.readLoop_eq inode offset (left + 1) 0).2 (by omega) (by rw [Nat.zero_add]; omega)
      constructor
      · intro h
        have hcount := h.count
        rw [readData_eq hboot hinode (Nat.not_lt.mp hoffset), hzero, List.length_eq_zero_iff] at hcount
        exact absurd hcount (readLoop_ne_nil fs inode offset left 0 _)
      · intro h
        omega

/-- All of `shell` in one call. -/
theorem readData_stopsAtEnd_iff_shell :
    shellImage.theBootBlock ≠ 0 ∧ 0 < shellImage.inodeCount ∧ shellImage.StopsAtEnd 0 0 28 := by
  have hcount : 0 < shellImage.inodeCount := by decide +kernel
  have hlength : shellImage.inodeLength 0 = 28 := by decide +kernel
  refine ⟨by decide, hcount, ?_⟩
  apply (readData_stopsAtEnd_iff (by decide) hcount 0 28).mpr
  rw [hlength]
  decide

/-- `cat` asks for 1024 bytes at a time: of a file of 28 it gets 1024. -/
theorem readData_past_end : WellFormed shellImage ∧ 0 < shellImage.inodeCount ∧
    shellImage.inodeLength 0 = 28 ∧ (shellImage.readData 0 0 false 1024).1 = 1024 ∧
    ¬ shellImage.StopsAtEnd 0 0 1024 := by
  have hread : (shellImage.readData 0 0 false 1024).1 = 1024 := by
    rw [readData_of_fits (by decide) (by decide +kernel) (Nat.zero_le _) (Or.inr (by decide))]
  have hlength : shellImage.inodeLength 0 = 28 := by decide +kernel
  refine ⟨shellImage_wellFormed, by decide +kernel, hlength, hread, ?_⟩
  intro h
  have hle := h.le
  rw [hread, hlength] at hle
  omega

end BasicOs
