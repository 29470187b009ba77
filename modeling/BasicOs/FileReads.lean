import BasicOs.Lib.Chunks
import BasicOs.Descriptors

/-!
# Reading a file in chunks

A file that `sys_open` opened is read with `sys_read`, once for each size of a sequence. `Delivers` says
that the calls hand over a given content and then return `0` for ever. `read_data` does not stop at the
end of the file and steers by the number of bytes it has read where it should look at the position, so
the sizes matter: `delivers_iff` says which of them get the file's content.

* `WellFormed fs` : an image whose numbers are in range;
* `OpenOn k esp fd inode pos` : descriptor `fd` is open on a regular file, at position `pos`;
* `sysRead_end`, `sysRead_full`, `sysRead_cut` : what one call does there;
* `ChunksFit` : the sizes with which the file is delivered.
-/

namespace BasicOs
open Bytes Chunks FileSystem

/-- An image that `init_file_system` accepts at the address the boot code keeps, with the numbers its
directory and its inodes hold in range. -/
structure WellFormed (fs : FileSystem) : Prop where
  loaded : fs.fsStartAddr ≠ 0
  accepted : ∃ fsEnd, fs.initFileSystem fs.fsStartAddr fsEnd = (fs, 0)
  inode_lt : ∀ d ∈ fs.slots, effectiveName d ≠ [] → d.filetype = 2 → d.inodeNum < fs.inodeCount
  block_lt : ∀ i < fs.inodeCount, ∀ n, n * blockSize < fs.inodeLength i →
    fs.dataBlockNum i n < fs.dataBlockCount
  length_le : ∀ i < fs.inodeCount, fs.inodeLength i ≤ 1022 * blockSize

theorem WellFormed.bootBlock {fs : FileSystem} (h : WellFormed fs) : fs.theBootBlock = fs.fsStartAddr := by
  obtain ⟨fsEnd, h⟩ := h.accepted
  unfold initFileSystem at h
  dsimp only at h
  split_ifs at h
  · cases (Prod.ext_iff.mp h).2
  · exact (congrArg FileSystem.theBootBlock (Prod.ext_iff.mp h).1).symm

theorem WellFormed.bootBlock_ne_zero {fs : FileSystem} (h : WellFormed fs) : fs.theBootBlock ≠ 0 := by
  rw [h.bootBlock]
  exact h.loaded

/-- The word `file_read` takes for the length is that of the inode. -/
theorem WellFormed.lengthWord_eq {fs : FileSystem} (h : WellFormed fs) (inode : Nat) :
    load32 fs.mem (fs.fsStartAddr + (inode + 1) * blockSize) = fs.inodeLength inode := by
  rw [inodeLength, inodeAddr, load32_u32, h.bootBlock, Nat.mul_comm]

/-! ## One call -/

/-- Descriptor `fd` of the process on the stack `esp` is open on a regular file, at position `pos`. -/
def OpenOn (k : Kernel) (esp fd : Int) (inode pos : Nat) : Prop :=
  (0 ≤ fd ∧ fd < fdaSize) ∧ (k.pcbs (stackOwner esp)).fda fd =
    { fopsPtr := .filesysTable, inode := inode, filePosition := pos, flags := inUse }

section OneCall
variable {k : Kernel} {esp fd : Int} {inode pos n : Nat}

theorem sysRead_of_openOn (h : OpenOn k esp fd inode pos) (nbytes : Int) :
    sysRead k esp fd false nbytes = some (fileRead k esp fd nbytes) := by
  obtain ⟨⟨h0, h8⟩, he⟩ := h
  unfold sysRead
  rw [if_neg (by omega), if_neg (by decide), he, if_neg (show inUse ≠ notInUse by decide)]
  rfl

theorem OpenOn.advance (h : OpenOn k esp fd inode pos) {r : Nat} (hlt : pos + r < 2 ^ 32) :
    OpenOn (k.modifyPcb (stackOwner esp) fun pcb =>
      pcb.modifyFile fd fun f => { f with filePosition := u32 (f.filePosition + r) }) esp fd inode (pos + r) := by
  refine ⟨h.1, ?_⟩
  rw [Kernel.modifyPcb_pcbs_self]
  simp only [Pcb.modifyFile, Function.update_self, h.2, u32, Nat.mod_eq_of_lt hlt]

/-- Past `file_read`'s own test for the end of the file, the call is a call of `read_data`. -/
theorem fileRead_eq (hwf : WellFormed k.fs) (hinode : inode < k.fs.inodeCount)
    (h : OpenOn k esp fd inode pos) (hn : n < 2 ^ 31) (hpos : pos ≤ k.fs.inodeLength inode)
    (hlen : pos < k.fs.inodeLength inode ∨ k.fs.inodeLength inode = 0) :
    fileRead k esp fd n =
      let r := k.fs.readLoop inode pos n 0 (k.fs.cursorAt inode pos 0)
      (k.modifyPcb (stackOwner esp) fun pcb =>
        pcb.modifyFile fd fun f => { f with filePosition := u32 (f.filePosition + r.1) }, i32 r.1, r.2) := by
  have hbytes : ((n : Int) % 2 ^ 32).toNat = n := by omega
  unfold fileRead
  simp only [h.2, hwf.lengthWord_eq]
  rw [if_neg (by omega), hbytes, readData_of_le (not_refuses hwf.bootBlock_ne_zero hinode) hpos]

/-- At the end of a file that is not empty nothing is read. -/
theorem sysRead_end (hwf : WellFormed k.fs) (h : OpenOn k esp fd inode pos)
    (hlen : k.fs.inodeLength inode ≠ 0) (hpos : k.fs.inodeLength inode ≤ pos) (nbytes : Int) :
    sysRead k esp fd false nbytes = some (k, 0, []) := by
  rw [sysRead_of_openOn h, fileRead]
  simp only [h.2, hwf.lengthWord_eq]
  rw [if_pos ⟨hpos, hlen⟩]

/-- Before it, `n` bytes are read, whatever the length of the file, while block numbers last. -/
theorem sysRead_full (hwf : WellFormed k.fs) (hinode : inode < k.fs.inodeCount)
    (h : OpenOn k esp fd inode pos) (hn : n < 2 ^ 31) (hpos : pos ≤ k.fs.inodeLength inode)
    (hlen : pos < k.fs.inodeLength inode ∨ k.fs.inodeLength inode = 0)
    (hfit : readPos pos n / blockSize ≤ 1022) :
    ∃ k', sysRead k esp fd false n = some (k', (n : Int), k.fs.readBytes inode pos n) ∧
      k'.fs = k.fs ∧ OpenOn k' esp fd inode (pos + n) := by
  have hmax := hwf.length_le inode hinode
  have hloop := (readLoop_eq k.fs inode pos n 0).1 (Or.inr (by rwa [Nat.zero_add]))
  rw [Nat.zero_add] at hloop
  have hi32 : i32 n = n := by
    unfold i32
    omega
  simp only [blockSize] at hmax
  rw [sysRead_of_openOn h, fileRead_eq hwf hinode h hn hpos hlen]
  simp only [hloop, hi32, ← List.range_eq_range']
  exact ⟨_, rfl, rfl, h.advance (by omega)⟩

/-- When block numbers run out, `0` is returned and the position stays. -/
theorem sysRead_cut (hwf : WellFormed k.fs) (hinode : inode < k.fs.inodeCount)
    (h : OpenOn k esp fd inode pos) (hn : n < 2 ^ 31) (hpos : pos ≤ k.fs.inodeLength inode)
    (hlen : pos < k.fs.inodeLength inode ∨ k.fs.inodeLength inode = 0)
    (hcut : 1022 < readPos pos n / blockSize) :
    ∃ k' bytes, sysRead k esp fd false n = some (k', 0, bytes) ∧
      k'.fs = k.fs ∧ OpenOn k' esp fd inode pos := by
  have hmax := hwf.length_le inode hinode
  have hn0 : n ≠ 0 := by
    rintro rfl
    simp only [readPos, blockSize] at hcut hmax
    omega
  have hloop := (readLoop_eq k.fs inode pos n 0).2 hn0 (by rwa [Nat.zero_add])
  simp only [blockSize] at hmax
  rw [sysRead_of_openOn h, fileRead_eq hwf hinode h hn hpos hlen]
  simp only [hloop]
  exact ⟨_, _, rfl, rfl, h.advance (by omega)⟩

end OneCall

/-! ## A sequence of calls -/

/-- The kernel after the first `j` reads, of the given sizes. -/
def afterReads (k : Kernel) (esp fd : Int) (sizes : Nat → Nat) : Nat → Option Kernel
  | 0 => some k
  | j + 1 => (afterReads k esp fd sizes j).bind fun k => (sysRead k esp fd false (sizes j)).map (·.1)

/-- What read `j` returns, and what it leaves in the buffer. -/
def chunkRead (k : Kernel) (esp fd : Int) (sizes : Nat → Nat) (j : Nat) : Option (Int × List UInt8) :=
  (afterReads k esp fd sizes j).bind fun k => (sysRead k esp fd false (sizes j)).map (·.2)

/-- Reads of these sizes, up to the first that returns `0`, hand over `content`, and all later ones return
`0`. -/
def Delivers (k : Kernel) (esp fd : Int) (sizes : Nat → Nat) (content : List UInt8) : Prop :=
  ∃ (m : Nat) (chunk : Nat → Int × List UInt8),
    (∀ j, chunkRead k esp fd sizes j = some (chunk j)) ∧
    (∀ j < m, (chunk j).1 ≠ 0) ∧ (∀ j, m ≤ j → (chunk j).1 = 0) ∧
    ((List.range m).map fun j => (chunk j).2.take (chunk j).1.toNat).flatten = content

/-- The sizes with which a file is read right: some of the reads end together at the end of the file, and
wherever `read_data` is a word behind, the file has the same byte there. An empty file is delivered only
to reads so long that they run out of block numbers. -/
def ChunksFit (fs : FileSystem) (inode : Nat) (sizes : Nat → Nat) : Prop :=
  if fs.inodeLength inode = 0 then ∀ j, 1023 * blockSize ≤ sizes j
  else ∃ m, startOf sizes m = fs.inodeLength inode ∧
    ∀ j < m, ∀ b < sizes j, 4 ≤ startOf sizes j % 4 + b % 4 →
      fs.fileByte inode (startOf sizes j + b) = fs.fileByte inode (startOf sizes j + b - 4)

theorem readPos_of_lt {offset b : Nat} (h : offset % 4 + b % 4 < 4) : readPos offset b = offset + b := by
  unfold readPos
  omega

theorem readPos_of_le {offset b : Nat} (h : 4 ≤ offset % 4 + b % 4) : readPos offset b = offset + b - 4 := by
  unfold readPos
  omega

/-- The bytes of a read are those of the file exactly when the word behind does not show. -/
theorem readBytes_eq_iff (fs : FileSystem) (inode offset n : Nat) :
    fs.readBytes inode offset n = ((List.range n).map fun b => fs.fileByte inode (offset + b)) ↔
      ∀ b < n, 4 ≤ offset % 4 + b % 4 →
        fs.fileByte inode (offset + b) = fs.fileByte inode (offset + b - 4) := by
  simp only [readBytes, List.map_inj_left, List.mem_range]
  constructor
  · intro h b hb h4
    rw [← h b hb, readPos_of_le h4]
  · intro h b hb
    by_cases h4 : 4 ≤ offset % 4 + b % 4
    · rw [readPos_of_le h4, h b hb h4]
    · rw [readPos_of_lt (by omega)]

/-- From the start of a file, a read runs out of block numbers exactly if it is this long. -/
theorem long_read_iff (n : Nat) : 1023 * blockSize ≤ n ↔ 1022 < readPos 0 n / blockSize := by
  simp only [readPos, blockSize]
  omega

section Sequence
variable {k : Kernel} {esp fd : Int} {inode : Nat} {sizes : Nat → Nat}

/-- After `j` reads the descriptor is at `pos`, and the file system is as it was. -/
def ReadsTo (k : Kernel) (esp fd : Int) (inode : Nat) (sizes : Nat → Nat) (j pos : Nat) : Prop :=
  ∃ k', afterReads k esp fd sizes j = some k' ∧ k'.fs = k.fs ∧ OpenOn k' esp fd inode pos

theorem ReadsTo.at_end {j pos : Nat} (h : ReadsTo k esp fd inode sizes j pos) (hwf : WellFormed k.fs)
    (hlen : k.fs.inodeLength inode ≠ 0) (hpos : k.fs.inodeLength inode ≤ pos) :
    chunkRead k esp fd sizes j = some (0, []) ∧ ReadsTo k esp fd inode sizes (j + 1) pos := by
  obtain ⟨k', hk', hfs, ho⟩ := h
  have hread := sysRead_end (hfs ▸ hwf) ho (hfs ▸ hlen) (hfs ▸ hpos) (sizes j)
  refine ⟨by simp [chunkRead, hk', hread], k', by simp [afterReads, hk', hread], hfs, ho⟩

/-- At the end of the file the descriptor stays there. -/
theorem ReadsTo.stays {j : Nat} (h : ReadsTo k esp fd inode sizes j (k.fs.inodeLength inode))
    (hwf : WellFormed k.fs) (hlen : k.fs.inodeLength inode ≠ 0) (i : Nat) :
    ReadsTo k esp fd inode sizes (j + i) (k.fs.inodeLength inode) := by
  induction i with
  | zero => exact h
  | succ i ih => exact (ih.at_end hwf hlen le_rfl).2

theorem ReadsTo.full {j pos : Nat} (h : ReadsTo k esp fd inode sizes j pos) (hwf : WellFormed k.fs)
    (hinode : inode < k.fs.inodeCount) (hn : sizes j < 2 ^ 31) (hpos : pos ≤ k.fs.inodeLength inode)
    (hlen : pos < k.fs.inodeLength inode ∨ k.fs.inodeLength inode = 0)
    (hfit : readPos pos (sizes j) / blockSize ≤ 1022) :
    chunkRead k esp fd sizes j =
        some ((sizes j : Int), k.fs.readBytes inode pos (sizes j)) ∧
      ReadsTo k esp fd inode sizes (j + 1) (pos + sizes j) := by
  obtain ⟨k', hk', hfs, ho⟩ := h
  rw [← hfs] at hwf hinode hpos hlen ⊢
  obtain ⟨k₂, hread, hfs₂, ho₂⟩ := sysRead_full hwf hinode ho hn hpos hlen hfit
  exact ⟨by simp [chunkRead, hk', hread], k₂, by simp [afterReads, hk', hread], hfs₂.trans hfs, ho₂⟩

theorem ReadsTo.cut {j pos : Nat} (h : ReadsTo k esp fd inode sizes j pos) (hwf : WellFormed k.fs)
    (hinode : inode < k.fs.inodeCount) (hn : sizes j < 2 ^ 31) (hpos : pos ≤ k.fs.inodeLength inode)
    (hlen : pos < k.fs.inodeLength inode ∨ k.fs.inodeLength inode = 0)
    (hcut : 1022 < readPos pos (sizes j) / blockSize) :
    (∃ bytes, chunkRead k esp fd sizes j = some (0, bytes)) ∧ ReadsTo k esp fd inode sizes (j + 1) pos := by
  obtain ⟨k', hk', hfs, ho⟩ := h
  rw [← hfs] at hwf hinode hpos hlen
  obtain ⟨k₂, bytes, hread, hfs₂, ho₂⟩ := sysRead_cut hwf hinode ho hn hpos hlen hcut
  exact ⟨⟨bytes, by simp [chunkRead, hk', hread]⟩, k₂, by simp [afterReads, hk', hread], hfs₂.trans hfs, ho₂⟩

variable (hwf : WellFormed k.fs) (hinode : inode < k.fs.inodeCount) (hopen : OpenOn k esp fd inode 0)
  (hsizes : ∀ j, 0 < sizes j ∧ sizes j < 2 ^ 31)
include hwf hinode hopen hsizes

/-- The reads of a file that is not empty, as long as none returned `0`. -/
theorem reads_nonempty (hlen : k.fs.inodeLength inode ≠ 0) {m : Nat} {chunk : Nat → Int × List UInt8}
    (hchunk : ∀ j, chunkRead k esp fd sizes j = some (chunk j)) (hne : ∀ j < m, (chunk j).1 ≠ 0) :
    ∀ j ≤ m, ReadsTo k esp fd inode sizes j (startOf sizes j) ∧
      ∀ i < j, chunk i = ((sizes i : Int), k.fs.readBytes inode (startOf sizes i) (sizes i)) := by
  intro j
  induction j with
  | zero => exact fun _ => ⟨⟨k, rfl, rfl, hopen⟩, fun i hi => absurd hi (Nat.not_lt_zero i)⟩
  | succ j ih =>
    intro hj
    obtain ⟨hto, hprev⟩ := ih (by omega)
    by_cases hend : k.fs.inodeLength inode ≤ startOf sizes j
    · have := (hto.at_end hwf hlen hend).1
      rw [hchunk, Option.some_inj] at this
      exact absurd (congrArg Prod.fst this) (hne j (by omega))
    · by_cases hfit : readPos (startOf sizes j) (sizes j) / blockSize ≤ 1022
      · obtain ⟨hread, hnext⟩ := hto.full hwf hinode (hsizes j).2 (by omega) (by omega) hfit
        refine ⟨hnext, fun i hi => ?_⟩
        obtain hi | rfl : i < j ∨ i = j := by omega
        · exact hprev i hi
        · exact Option.some_inj.mp ((hchunk i).symm.trans hread)
      · obtain ⟨⟨bytes, hread⟩, -⟩ := hto.cut hwf hinode (hsizes j).2 (by omega) (by omega) (by omega)
        rw [hchunk, Option.some_inj] at hread
        exact absurd (congrArg Prod.fst hread) (hne j (by omega))

/-- Reads of sizes that add up to the length of the file are full until its end is reached. -/
theorem reads_full {m : Nat} (hstart : startOf sizes m = k.fs.inodeLength inode) :
    ∀ j ≤ m, ReadsTo k esp fd inode sizes j (startOf sizes j) ∧ ∀ i < j,
      chunkRead k esp fd sizes i = some ((sizes i : Int), k.fs.readBytes inode (startOf sizes i) (sizes i)) := by
  have hpos : ∀ j, 0 < sizes j := fun j => (hsizes j).1
  have hmax := hwf.length_le inode hinode
  have hmono : ∀ j ≤ m, startOf sizes j ≤ k.fs.inodeLength inode := by
    intro j hj
    rcases Nat.eq_or_lt_of_le hj with rfl | hj
    · exact hstart.le
    · exact hstart ▸ (startOf_lt hpos hj).le
  intro j
  induction j with
  | zero => exact fun _ => ⟨⟨k, rfl, rfl, hopen⟩, fun i hi => absurd hi (Nat.not_lt_zero i)⟩
  | succ j ih =>
    intro hj
    obtain ⟨hto, hprev⟩ := ih (by omega)
    have hlt : startOf sizes j < k.fs.inodeLength inode := hstart ▸ startOf_lt hpos hj
    have hnext := hmono (j + 1) hj
    have hfit : readPos (startOf sizes j) (sizes j) / blockSize ≤ 1022 := by
      rw [startOf] at hnext
      simp only [readPos, blockSize] at hmax ⊢
      omega
    obtain ⟨hread, hnext⟩ := hto.full hwf hinode (hsizes j).2 (by omega) (by omega) hfit
    refine ⟨hnext, fun i hi => ?_⟩
    obtain hi | rfl : i < j ∨ i = j := by omega
    · exact hprev i hi
    · exact hread

theorem delivers_iff_of_length_ne_zero (hlen : k.fs.inodeLength inode ≠ 0) :
    Delivers k esp fd sizes (k.fs.fileBytes inode (k.fs.inodeLength inode)) ↔
      ChunksFit k.fs inode sizes := by
  have hpos : ∀ j, 0 < sizes j := fun j => (hsizes j).1
  rw [ChunksFit, if_neg hlen]
  constructor
  · rintro ⟨m, chunk, hchunk, hne, hzero, hcontent⟩
    have hall := (reads_nonempty hwf hinode hopen hsizes hlen hchunk hne m le_rfl).2
    have htake : ((List.range m).map fun j => (chunk j).2.take (chunk j).1.toNat) =
        (List.range m).map fun j => k.fs.readBytes inode (startOf sizes j) (sizes j) := by
      apply List.map_congr_left
      intro j hj
      rw [hall j (List.mem_range.mp hj)]
      exact List.take_of_length_le (by simp)
    have hlens : ∀ j < m, (k.fs.readBytes inode (startOf sizes j) (sizes j)).length = sizes j :=
      fun j _ => readBytes_length _ _ _ _
    have hstart : startOf sizes m = k.fs.inodeLength inode := by
      rw [← length_flatten_chunks hlens, ← htake, hcontent]
      simp [fileBytes]
    refine ⟨m, hstart, fun j hj => (readBytes_eq_iff _ _ _ _).mp ?_⟩
    rw [htake, fileBytes, ← hstart] at hcontent
    exact (flatten_chunks_eq_iff _ hlens).mp hcontent j hj
  · rintro ⟨m, hstart, hbytes⟩
    have hto := reads_full hwf hinode hopen hsizes hstart
    have hend : ReadsTo k esp fd inode sizes m (k.fs.inodeLength inode) := hstart ▸ (hto m le_rfl).1
    refine ⟨m, fun j => if j < m then
        ((sizes j : Int), k.fs.readBytes inode (startOf sizes j) (sizes j)) else (0, []),
      fun j => ?_, fun j hj => ?_, fun j hj => ?_, ?_⟩
    · dsimp only
      split_ifs with hj
      · exact (hto m le_rfl).2 j hj
      · obtain ⟨i, rfl⟩ := Nat.exists_eq_add_of_le (Nat.not_lt.mp hj)
        exact ((hend.stays hwf hlen i).at_end hwf hlen le_rfl).1
    · have := hpos j
      simp only [hj, if_true]
      omega
    · simp [Nat.not_lt.mpr hj]
    · rw [fileBytes, ← hstart]
      refine (flatten_chunks_eq_iff _ fun j hj => ?_).mpr fun j hj => ?_
      · simp [hj]
      · simp only [hj, if_true]
        rw [List.take_of_length_le (by simp)]
        exact (readBytes_eq_iff _ _ _ _).mpr (hbytes j hj)

/-- Reads of an empty file that run out of block numbers leave the position at the start. -/
theorem reads_empty_stay (hlen : k.fs.inodeLength inode = 0) (hlong : ∀ j, 1023 * blockSize ≤ sizes j) (j : Nat) :
    ReadsTo k esp fd inode sizes j 0 := by
  induction j with
  | zero => exact ⟨k, rfl, rfl, hopen⟩
  | succ j ih =>
    exact (ih.cut hwf hinode (hsizes j).2 (by omega) (Or.inr hlen) ((long_read_iff _).mp (hlong j))).2

/-- Reads of an empty file that deliver nothing all run out of block numbers: the first that did not would already be
too much. -/
theorem reads_empty_long (hlen : k.fs.inodeLength inode = 0) {m : Nat} {chunk : Nat → Int × List UInt8}
    (hchunk : ∀ j, chunkRead k esp fd sizes j = some (chunk j)) (hzero : ∀ j, m ≤ j → (chunk j).1 = 0)
    (hempty : ∀ j < m, (chunk j).2.take (chunk j).1.toNat = []) (j : Nat) :
    ReadsTo k esp fd inode sizes j 0 ∧ ∀ i < j, 1023 * blockSize ≤ sizes i := by
  induction j with
  | zero => exact ⟨⟨k, rfl, rfl, hopen⟩, fun i hi => absurd hi (Nat.not_lt_zero i)⟩
  | succ j ih =>
    obtain ⟨hto, hprev⟩ := ih
    have hcut : 1022 < readPos 0 (sizes j) / blockSize := by
      by_contra hle
      have hread := (hto.full hwf hinode (hsizes j).2 (by omega) (Or.inr hlen) (Nat.not_lt.mp hle)).1
      rw [hchunk, Option.some_inj] at hread
      have hpos := (hsizes j).1
      by_cases hj : j < m
      · have hnil := congrArg List.length (hempty j hj)
        rw [hread, Int.toNat_natCast, List.take_of_length_le (by simp), readBytes_length, List.length_nil] at hnil
        omega
      · have hnone := hzero j (by omega)
        rw [hread] at hnone
        simp only at hnone
        omega
    refine ⟨(hto.cut hwf hinode (hsizes j).2 (by omega) (Or.inr hlen) hcut).2, ?_⟩
    intro i hi
    obtain hi | rfl : i < j ∨ i = j := by omega
    · exact hprev i hi
    · exact (long_read_iff _).mpr hcut

theorem delivers_iff_of_length_eq_zero (hlen : k.fs.inodeLength inode = 0) :
    Delivers k esp fd sizes (k.fs.fileBytes inode (k.fs.inodeLength inode)) ↔
      ChunksFit k.fs inode sizes := by
  rw [ChunksFit, if_pos hlen]
  constructor
  · rintro ⟨m, chunk, hchunk, hne, hzero, hcontent⟩
    have hempty : ∀ j < m, (chunk j).2.take (chunk j).1.toNat = [] := by
      intro j hj
      rw [hlen] at hcontent
      exact List.flatten_eq_nil_iff.mp hcontent _ (List.mem_map.mpr ⟨j, List.mem_range.mpr hj, rfl⟩)
    intro j
    exact (reads_empty_long hwf hinode hopen hsizes hlen hchunk hzero hempty (j + 1)).2 j (Nat.lt_succ_self j)
  · intro hlong
    have hread : ∀ j, ∃ bytes, chunkRead k esp fd sizes j = some (0, bytes) := by
      intro j
      have hto := reads_empty_stay hwf hinode hopen hsizes hlen hlong j
      exact (hto.cut hwf hinode (hsizes j).2 (by omega) (Or.inr hlen) ((long_read_iff _).mp (hlong j))).1
    choose bytes hbytes using hread
    refine ⟨0, fun j => (0, bytes j), hbytes, fun j hj => absurd hj (Nat.not_lt_zero j), fun _ _ => rfl, ?_⟩
    rw [hlen]
    rfl

/-- Reads of positive sizes deliver the file's content exactly when the sizes fit it. -/
theorem delivers_iff :
    Delivers k esp fd sizes (k.fs.fileBytes inode (k.fs.inodeLength inode)) ↔ ChunksFit k.fs inode sizes := by
  by_cases hlen : k.fs.inodeLength inode = 0
  · exact delivers_iff_of_length_eq_zero hwf hinode hopen hsizes hlen
  · exact delivers_iff_of_length_ne_zero hwf hinode hopen hsizes hlen

end Sequence

/-! ## Opening and reading -/

theorem sysOpen_openOn {k k' : Kernel} {esp fd : Int} {name : List UInt8} {rate : UInt8} {d : Dentry}
    (hname : k.fs.lookup name = some d) (htype : d.filetype = 2)
    (hopen : sysOpen k esp name rate = some (k', fd)) (hfd : fd ≠ -1) :
    k'.fs = k.fs ∧ OpenOn k' esp fd d.inodeNum 0 := by
  have hle : ∀ d', k.fs.lookup name = some d' → d'.filetype ≤ 2 := by
    intro d' hd'
    rw [hname] at hd'
    cases hd'
    omega
  rcases sysOpen_cases esp rate hle with ⟨-, ho⟩ | ⟨d', fd', fops, k₁, hd', hfree, hfops, hp, hf, ho⟩
  · rw [hopen] at ho
    cases ho
    exact absurd rfl hfd
  · obtain ⟨⟨h2, h7⟩, -⟩ := freeFd_eq_some hfree
    rw [hname] at hd'
    cases hd'
    rw [htype] at hfops
    cases hfops
    rw [hopen] at ho
    cases ho
    refine ⟨hf, ⟨by omega, by simp only [fdaSize]; omega⟩, ?_⟩
    rw [Kernel.modifyPcb_pcbs_self, modifyFile_fda, if_pos rfl]
    rfl

/-- Which sizes deliver a regular file of a well-formed image, once it is opened. -/
theorem delivers_iff_of_open {k k' : Kernel} {esp fd : Int} {name : List UInt8} {rate : UInt8} {d : Dentry}
    (hwf : WellFormed k.fs) (hname : k.fs.lookup name = some d) (htype : d.filetype = 2)
    (hopen : sysOpen k esp name rate = some (k', fd)) (hfd : fd ≠ -1) (sizes : Nat → Nat)
    (hs : ∀ j, 0 < sizes j ∧ sizes j < 2 ^ 31) :
    Delivers k' esp fd sizes (k.fs.fileBytes d.inodeNum (k.fs.inodeLength d.inodeNum)) ↔
      ChunksFit k.fs d.inodeNum sizes := by
  obtain ⟨hmem, heff, hne⟩ := lookup_eq_some hname
  have hinode := hwf.inode_lt d hmem (heff ▸ hne) htype
  obtain ⟨hfs, ho⟩ := sysOpen_openOn hname htype hopen hfd
  rw [← hfs] at hwf hinode ⊢
  exact delivers_iff hwf hinode ho hs

/-- **Reading in chunks.** For a regular file of a well-formed image, opened by name, and two sequences of
read sizes: both deliver the content of the file exactly when both sequences of sizes fit it. -/
theorem reads_deliver_iff {k k' : Kernel} {esp fd : Int} {name : List UInt8} {rate : UInt8} {d : Dentry}
    (hwf : WellFormed k.fs) (hname : k.fs.lookup name = some d) (htype : d.filetype = 2)
    (hopen : sysOpen k esp name rate = some (k', fd)) (hfd : fd ≠ -1) (sizes sizes' : Nat → Nat)
    (hs : ∀ j, 0 < sizes j ∧ sizes j < 2 ^ 31) (hs' : ∀ j, 0 < sizes' j ∧ sizes' j < 2 ^ 31) :
    (Delivers k' esp fd sizes (k.fs.fileBytes d.inodeNum (k.fs.inodeLength d.inodeNum)) ∧
      Delivers k' esp fd sizes' (k.fs.fileBytes d.inodeNum (k.fs.inodeLength d.inodeNum))) ↔
    ChunksFit k.fs d.inodeNum sizes ∧ ChunksFit k.fs d.inodeNum sizes' := by
  rw [delivers_iff_of_open hwf hname htype hopen hfd sizes hs,
    delivers_iff_of_open hwf hname htype hopen hfd sizes' hs']

theorem shellImage_wellFormed : WellFormed shellImage where
  loaded := by decide
  accepted := by
    refine ⟨16384, ?_⟩
    unfold initFileSystem
    rw [if_neg (by decide +kernel)]
    rfl
  inode_lt := by decide +kernel
  block_lt := by
    have hcount : shellImage.inodeCount = 1 := by decide +kernel
    have hlength : shellImage.inodeLength 0 = 28 := by decide +kernel
    intro i hi n hn
    rw [hcount] at hi
    obtain rfl : i = 0 := by omega
    rw [hlength, blockSize] at hn
    obtain rfl : n = 0 := by omega
    decide +kernel
  length_le := by decide +kernel

/-- A process of the small image, with nothing opened yet. -/
def shellProcess : Kernel := initPcb (Kernel.atLoad shellImage) 3 []

/-- A stack pointer in that process's kernel stack. -/
def shellProcessEsp : Int := kernelStackBase 3 - 64

/-- The directory entry of `shell`. -/
def shellDentry : Dentry := shellImage.direntry 0

theorem shellProcess_lookup : shellProcess.fs.lookup shellName = some shellDentry := by decide +kernel

theorem shellDentry_filetype : shellDentry.filetype = 2 := by decide +kernel

theorem shell_length : shellProcess.fs.inodeLength shellDentry.inodeNum = 28 := by decide +kernel

theorem shellProcess_open : ∃ k', sysOpen shellProcess shellProcessEsp shellName 0 = some (k', 2) := ⟨_, rfl⟩

/-- Chunks of a multiple of four bytes that add up to the file are read right. -/
theorem chunksFit_const {fs : FileSystem} {inode n : Nat} (m : Nat) (h4 : n % 4 = 0)
    (hlen : fs.inodeLength inode = n * m) (hne : fs.inodeLength inode ≠ 0) : ChunksFit fs inode fun _ => n := by
  rw [ChunksFit, if_neg hne, hlen]
  refine ⟨m, startOf_const n m, fun j _ b _ hb => ?_⟩
  have : n * j % 4 = 0 := by rw [Nat.mul_mod, h4, Nat.zero_mul, Nat.zero_mod]
  rw [startOf_const, this] at hb
  omega

/-- The 28 bytes of `shell` in one read, and in reads of four. -/
theorem reads_deliver_iff_shell :
    ∃ k', sysOpen shellProcess shellProcessEsp shellName 0 = some (k', 2) ∧
      Delivers k' shellProcessEsp 2 (fun _ => 28) (shellImage.fileBytes shellDentry.inodeNum 28) ∧
      Delivers k' shellProcessEsp 2 (fun _ => 4) (shellImage.fileBytes shellDentry.inodeNum 28) := by
  obtain ⟨k', hopen⟩ := shellProcess_open
  have hne : shellProcess.fs.inodeLength shellDentry.inodeNum ≠ 0 := by
    rw [shell_length]
    decide
  have hboth := (reads_deliver_iff shellImage_wellFormed shellProcess_lookup shellDentry_filetype hopen
    (by decide) (fun _ => 28) (fun _ => 4) (fun _ => by simp) (fun _ => by simp)).mpr
    ⟨chunksFit_const 1 (by decide) shell_length hne, chunksFit_const 7 (by decide) shell_length hne⟩
  rw [shell_length] at hboth
  exact ⟨k', hopen, hboth⟩

/-- `cat` reads 1024 bytes at a time, and gets 1024 of a file of 28. -/
theorem reads_overrun_shell :
    WellFormed shellImage ∧ shellProcess.fs.lookup shellName = some shellDentry ∧ shellDentry.filetype = 2 ∧
      ∃ k', sysOpen shellProcess shellProcessEsp shellName 0 = some (k', 2) ∧
        ¬ Delivers k' shellProcessEsp 2 (fun _ => 1024) (shellImage.fileBytes shellDentry.inodeNum 28) := by
  obtain ⟨k', hopen⟩ := shellProcess_open
  refine ⟨shellImage_wellFormed, shellProcess_lookup, shellDentry_filetype, k', hopen, fun h => ?_⟩
  have hiff := delivers_iff_of_open shellImage_wellFormed shellProcess_lookup shellDentry_filetype hopen
    (by decide) (fun _ => 1024) (fun _ => by simp)
  rw [shell_length, ChunksFit, shell_length, if_neg (by decide)] at hiff
  obtain ⟨m, hm, -⟩ := hiff.mp h
  rw [startOf_const] at hm
  omega

end BasicOs
