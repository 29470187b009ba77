import BasicOs.FileData
import BasicOs.Process

/-!
# The program loader

STEP 2 to STEP 4 of `sys_execute`: the file is found by its name, its first four bytes say that it is an ELF
file, bytes 24 to 27 are the entry point, and all of it is copied to `0x8048000`, in the 4 MB page of the new
process.

* `userByte k a` : what a program finds at address `a` of its page;
* `program_loaded` : the file is there, byte by byte, and no other byte of user memory changed.
-/

namespace BasicOs
open Bytes FileSystem

/-- The byte at address `a` of the page that is mapped at 128 MB. -/
def userByte (k : Kernel) (a : Nat) : UInt8 :=
  k.userMem ((k.pageDirectory 32).offset31_12 * 4096 + (a - one28Mb))

/-- The little-endian word in bytes `p` to `p + 3` of a file. -/
def fileWord (fs : FileSystem) (inode p : Nat) : Nat :=
  (fs.fileByte inode p).toNat + 256 * (fs.fileByte inode (p + 1)).toNat +
    65536 * (fs.fileByte inode (p + 2)).toNat + 16777216 * (fs.fileByte inode (p + 3)).toNat

/-! ## Reads from a multiple of four -/

section Aligned
variable {fs : FileSystem} {inode : Nat}

theorem readBytes_aligned {offset : Nat} (h : offset % 4 = 0) (n : Nat) :
    fs.readBytes inode offset n = (List.range n).map fun b => fs.fileByte inode (offset + b) :=
  (readBytes_eq_iff _ _ _ _).mpr fun b _ h4 => by omega

theorem readData_aligned (hboot : fs.theBootBlock ≠ 0) (hinode : inode < fs.inodeCount) {offset n : Nat}
    (h : offset % 4 = 0) (hoffset : offset ≤ fs.inodeLength inode) (hmax : offset + n < 1023 * blockSize) :
    fs.readData inode offset false n = (n, (List.range n).map fun b => fs.fileByte inode (offset + b)) := by
  rw [readData_of_fits hboot hinode hoffset (Or.inr ?_), readBytes_aligned h]
  unfold readPos blockSize at *
  omega

theorem programBytes_eq (hboot : fs.theBootBlock ≠ 0) (hstart : fs.fsStartAddr = fs.theBootBlock)
    (hinode : inode < fs.inodeCount) (hmax : fs.inodeLength inode < 1023 * blockSize) :
    programBytes fs inode = fs.fileBytes inode (fs.inodeLength inode) := by
  have hlength : load32 fs.mem (fs.fsStartAddr + (inode + 1) * blockSize) = fs.inodeLength inode := by
    rw [inodeLength, inodeAddr, load32_u32, hstart, Nat.mul_comm]
  unfold programBytes
  dsimp only
  rw [hlength, readData_aligned hboot hinode rfl (Nat.zero_le _) (by omega)]
  simp only [Nat.zero_add]
  rfl

/-- The checks on a file of at least 28 bytes, and the entry point they find. -/
theorem findProgram_of_lookup (hboot : fs.theBootBlock ≠ 0) {cmd : List UInt8} {d : Dentry}
    (hd : fs.lookup cmd = some d) (hinode : d.inodeNum < fs.inodeCount) (hlen : 28 ≤ fs.inodeLength d.inodeNum)
    (stale : Nat → UInt8) : findProgram fs cmd stale =
      if fs.fileBytes d.inodeNum 4 = [0x7F, 69, 76, 70] then some (d.inodeNum, fileWord fs d.inodeNum 24)
      else none := by
  have hmagic : (fs.readData d.inodeNum 0 false 4).2 =
      [fs.fileByte d.inodeNum 0, fs.fileByte d.inodeNum 1, fs.fileByte d.inodeNum 2, fs.fileByte d.inodeNum 3] := by
    rw [readData_aligned hboot hinode rfl (Nat.zero_le _) (by decide)]
    rfl
  have hentry : (fs.readData d.inodeNum 24 false 4).2 =
      [fs.fileByte d.inodeNum 24, fs.fileByte d.inodeNum 25, fs.fileByte d.inodeNum 26, fs.fileByte d.inodeNum 27] := by
    rw [readData_aligned hboot hinode rfl (by omega) (by decide)]
    rfl
  have hbytes : fs.fileBytes d.inodeNum 4 =
      [fs.fileByte d.inodeNum 0, fs.fileByte d.inodeNum 1, fs.fileByte d.inodeNum 2, fs.fileByte d.inodeNum 3] := rfl
  unfold findProgram
  rw [readDentryByName_eq, hd]
  dsimp only
  rw [hmagic, hentry, hbytes]
  by_cases helf : [fs.fileByte d.inodeNum 0, fs.fileByte d.inodeNum 1, fs.fileByte d.inodeNum 2,
      fs.fileByte d.inodeNum 3] = [0x7F, 69, 76, 70]
  · rw [if_pos helf, helf, if_neg (by simp [storeAll])]
    rfl
  · rw [if_neg helf, if_pos]
    simpa [storeAll, or_iff_not_imp_left] using helf

theorem findProgram_eq (hboot : fs.theBootBlock ≠ 0) {cmd : List UInt8} {d : Dentry} (hd : fs.lookup cmd = some d)
    (hinode : d.inodeNum < fs.inodeCount) (hlen : 28 ≤ fs.inodeLength d.inodeNum)
    (helf : fs.fileBytes d.inodeNum 4 = [0x7F, 69, 76, 70]) (stale : Nat → UInt8) :
    findProgram fs cmd stale = some (d.inodeNum, fileWord fs d.inodeNum 24) := by
  rw [findProgram_of_lookup hboot hd hinode hlen, if_pos helf]

end Aligned

/-! ## User memory -/

theorem storeAll_apply_of_lt (m : Nat → UInt8) (a : Nat) (l : List UInt8) {i : Nat} (h : i < l.length) :
    storeAll m a l (a + i) = l.getD i 0 := by
  unfold storeAll
  rw [if_pos (by omega), Nat.add_sub_cancel_left]

theorem storeAll_apply_of_not (m : Nat → UInt8) (a : Nat) (l : List UInt8) {b : Nat}
    (h : b < a ∨ a + l.length ≤ b) : storeAll m a l b = m b := if_neg (by omega)

/-- After the load, user memory and the page directory stay as they are. -/
theorem launch_user (k : Kernel) (pid : Int) (inode entry : Nat) (args : List UInt8) (r : Regs) :
    (launch k pid inode entry args r).userMem = (loadProgram k pid inode).userMem ∧
      (launch k pid inode entry args r).pageDirectory = (loadProgram k pid inode).pageDirectory ∧
      (launch k pid inode entry args r).eip = entry := by
  unfold launch enterProgram
  obtain ⟨pcbs, h⟩ := placeProcess_frame (initPcb (loadProgram k pid inode) pid args) pid r
  rw [h]
  exact ⟨rfl, rfl, rfl⟩

/-- The address in memory of a program's first byte. -/
def loadAddr (pid : Int) : Nat := (pid.toNat + 2) * 0x400000 + 0x48000

/-- The part of a program that its page takes, and where. -/
theorem loadProgram_user (k : Kernel) {pid : Int} (hpid : 0 ≤ pid) (inode : Nat) :
    (loadProgram k pid inode).userMem =
        storeAll k.userMem (loadAddr pid) ((programBytes k.fs inode).take (one32Mb - usrBuf)) ∧
      ((loadProgram k pid inode).pageDirectory 32).offset31_12 * 4096 + 0x48000 = loadAddr pid := by
  have hoffset : ((loadProgram k pid inode).pageDirectory 32).offset31_12 = (pid.toNat + 2) * 1024 := by
    simp only [loadProgram, mapUserProgram, Kernel.modifyPde, Function.update_self, fourMbOffset]
    omega
  have haddr : ((loadProgram k pid inode).pageDirectory 32).offset31_12 * 4096 + 0x48000 = loadAddr pid := by
    rw [hoffset, loadAddr]
    omega
  refine ⟨?_, haddr⟩
  rw [← haddr]
  unfold loadProgram
  dsimp only
  rw [List.take_take, Nat.min_eq_left (Nat.sub_le_sub_right (le_loadEnd _) usrBuf)]
  rfl

theorem storeVideo_nil (k : Kernel) : storeVideo k [] = k.videoMem := by
  funext a
  exact if_neg fun h => absurd h.2 (by simpa using h.1)

/-- A program that fits its page leaves the video memory alone. -/
theorem launch_videoMem {k : Kernel} {inode : Nat} (h : usrBuf + (programBytes k.fs inode).length ≤ one32Mb)
    (pid : Int) (entry : Nat) (args : List UInt8) (r : Regs) :
    (launch k pid inode entry args r).videoMem = k.videoMem := by
  have hroom : (programBytes k.fs inode).length ≤ one32Mb - usrBuf := by omega
  have hload : (loadProgram k pid inode).videoMem = k.videoMem := by
    show storeVideo _ (((programBytes k.fs inode).take _).drop (one32Mb - usrBuf)) = k.videoMem
    rw [List.drop_eq_nil_of_le ((List.length_take_le' _ _).trans hroom), storeVideo_nil]
    rfl
  unfold launch enterProgram
  obtain ⟨pcbs, hplace⟩ := placeProcess_frame (initPcb (loadProgram k pid inode) pid args) pid r
  rw [hplace, ← hload]
  rfl

/-- No program of the image is too long for its page. -/
def FileSystem.ProgramsFit (fs : FileSystem) : Prop :=
  ∀ inode, usrBuf + (programBytes fs inode).length ≤ one32Mb

/-- **The loader.** With an initialised image, a command line for a file of at least 28 and at most `0x3B8000`
bytes that starts with the ELF magic, and a pid to give, `sys_execute` enters the program: byte `i` of the file is
at user address `0x8048000 + i`, no other byte of user memory changed, and the entry point is the word in bytes 24
to 27. -/
theorem program_loaded {k : Kernel} {command : Nat → UInt8} {cmd args : List UInt8} {d : Dentry} {pid : Int}
    (hboot : k.fs.theBootBlock ≠ 0) (hstart : k.fs.fsStartAddr = k.fs.theBootBlock)
    (hline : command 0 ≠ chNewline) (hparse : parseCommand command = some (cmd, args))
    (hd : k.fs.lookup cmd = some d) (hinode : d.inodeNum < k.fs.inodeCount)
    (hlen : 28 ≤ k.fs.inodeLength d.inodeNum) (hfits : 0x8048000 + k.fs.inodeLength d.inodeNum ≤ 0x8400000)
    (helf : k.fs.fileBytes d.inodeNum 4 = [0x7F, 69, 76, 70]) (hpid : freePid k.pidArray = some pid)
    (r : Regs) (stale : Nat → UInt8) :
    ∃ k', sysExecute k (some command) r stale = .user k' ∧ UserPageIs k' pid ∧
      (∀ i < k.fs.inodeLength d.inodeNum, userByte k' (0x8048000 + i) =
        k.fs.blockByte (k.fs.dataBlockNum d.inodeNum (i / blockSize)) (i % blockSize)) ∧
      (∀ b, (b < loadAddr pid ∨ loadAddr pid + k.fs.inodeLength d.inodeNum ≤ b) → k'.userMem b = k.userMem b) ∧
      k'.eip = fileWord k.fs d.inodeNum 24 := by
  have hbytes : programBytes k.fs d.inodeNum = k.fs.fileBytes d.inodeNum (k.fs.inodeLength d.inodeNum) :=
    programBytes_eq hboot hstart hinode (by unfold blockSize; omega)
  have hcount : (k.fs.fileBytes d.inodeNum (k.fs.inodeLength d.inodeNum)).length = k.fs.inodeLength d.inodeNum := by
    simp [fileBytes]
  have hroom : usrBuf + (programBytes k.fs d.inodeNum).length ≤ one32Mb := by
    rw [hbytes, hcount]
    exact hfits
  have htake : (programBytes k.fs d.inodeNum).take (one32Mb - usrBuf) =
      k.fs.fileBytes d.inodeNum (k.fs.inodeLength d.inodeNum) := by
    rw [List.take_of_length_le (by omega), hbytes]
  obtain ⟨⟨h0, -⟩, -⟩ := freePid_eq_some hpid
  refine ⟨launch k pid d.inodeNum (fileWord k.fs d.inodeNum 24) args r, ?_, ?_, ?_, ?_, ?_⟩
  · unfold sysExecute
    simp only [hparse, findProgram_eq hboot hd hinode hlen helf, hpid]
    rw [if_neg hline, if_neg (not_lt.mpr (hroom.trans (le_loadEnd k)))]
  · exact launch_userPageIs _ _ _ _ _ _ h0
  · intro i hi
    obtain ⟨hmem, hpd, -⟩ := launch_user k pid d.inodeNum (fileWord k.fs d.inodeNum 24) args r
    obtain ⟨hload, haddr⟩ := loadProgram_user k h0 d.inodeNum
    have hoff : ((loadProgram k pid d.inodeNum).pageDirectory 32).offset31_12 * 4096 + (0x8048000 + i - one28Mb) =
        loadAddr pid + i := by
      rw [← haddr, one28Mb]
      omega
    rw [userByte, hmem, hpd, hoff, hload, htake, storeAll_apply_of_lt _ _ _ (by rw [hcount]; exact hi),
      ← fileByte_eq]
    simp [fileBytes, List.getD_eq_getElem?_getD, hi]
  · intro b hb
    rw [(launch_user _ _ _ _ _ _).1, (loadProgram_user k h0 d.inodeNum).1, htake]
    exact storeAll_apply_of_not _ _ _ (by rw [hcount]; exact hb)
  · exact (launch_user _ _ _ _ _ _).2.2

/-- The shell of the small image, as the first process: its first byte, and its entry point. -/
theorem program_loaded_shell : ∃ k', sysExecute (Kernel.atLoad shellImage) (some shellCommand) ⟨0, 0⟩ (fun _ => 0) =
    .user k' ∧ UserPageIs k' 0 ∧ userByte k' (0x8048000 + 0) = 0x7F ∧ k'.userMem 0x848020 = 0 ∧
    k'.eip = 0x8048000 := by
  have hlength : shellImage.inodeLength (shellImage.direntry 0).inodeNum = 28 := by decide +kernel
  have hfree : freePid (Kernel.atLoad shellImage).pidArray = some 0 := by decide
  obtain ⟨k', hk', hpage, hbytes, hframe, heip⟩ := program_loaded (k := Kernel.atLoad shellImage)
    (d := shellImage.direntry 0) (by decide) (by decide) (by decide) parseCommand_shell (by decide +kernel)
    (by decide +kernel) (by decide +kernel) (by decide +kernel) (by decide +kernel) hfree ⟨0, 0⟩ (fun _ => 0)
  have hout : 0x848020 < loadAddr 0 ∨
      loadAddr 0 + shellImage.inodeLength (shellImage.direntry 0).inodeNum ≤ 0x848020 := by
    rw [hlength]
    decide
  refine ⟨k', hk', hpage, (hbytes 0 ?_).trans ?_, hframe 0x848020 hout, heip.trans ?_⟩
  · show 0 < shellImage.inodeLength (shellImage.direntry 0).inodeNum
    rw [hlength]
    decide
  · decide +kernel
  · decide +kernel

end BasicOs
