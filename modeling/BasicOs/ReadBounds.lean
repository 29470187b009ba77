import BasicOs.Directory
import BasicOs.ImageBounds

/-!
# What a read call changes

`sys_read` hands the buffer and its size to a driver. `terminal_read` compares the size with the length of its line,
`file_read` passes it on as an unsigned number, `dir_read` does not look at it, and `rtc_read` stores nothing.

* `KeepsToBuffer`, `BufferFits` : a call stores and returns no more than it was asked for, and when it does;
* `AdvancesBy` : a call of `file_read` moves the position by what it returns; `file_read` adds the `-1` of `read_data`
  to the position as well.
-/

namespace BasicOs
open Bytes Run FileSystem

namespace FileSystem

/-! ## The loop of `read_data` once more -/

theorem readLoop_length_le (fs : FileSystem) (inode offset left : Nat) : ∀ (bytesRead : Nat) (c : Cursor),
    (fs.readLoop inode offset left bytesRead c).2.length ≤ left := by
  induction left with
  | zero =>
    intro bytesRead c
    exact le_rfl
  | succ left ih =>
    intro bytesRead c
    rw [readLoop]
    dsimp only
    split_ifs
    · simp
    · simpa using ih _ _

/-- The value it returns: nothing, or all that was asked for while block numbers last. -/
theorem readLoop_fst_cases (fs : FileSystem) (inode offset n : Nat) :
    (fs.readLoop inode offset n 0 (fs.cursorAt inode offset 0)).1 = 0 ∨
      (fs.readLoop inode offset n 0 (fs.cursorAt inode offset 0)).1 = n ∧ readPos offset n / blockSize ≤ 1022 := by
  have hloop := fs.readLoop_eq inode offset n 0
  rw [Nat.zero_add] at hloop
  by_cases hfit : readPos offset n / blockSize ≤ 1022
  · rw [hloop.1 (Or.inr hfit)]
    exact Or.inr ⟨rfl, hfit⟩
  · by_cases hn : n = 0
    · rw [hloop.1 (Or.inl hn)]
      exact Or.inl hn
    · exact Or.inl (hloop.2 hn (Nat.not_le.mp hfit))

/-- The word `file_read` takes for the length of a file. -/
def fileLength (fs : FileSystem) (inode : Nat) : Nat := load32 fs.mem (fs.fsStartAddr + (inode + 1) * blockSize)

/-- `file_read`'s test for the end of the file. -/
def AtFileEnd (fs : FileSystem) (inode pos : Nat) : Prop := fs.fileLength inode ≤ pos ∧ fs.fileLength inode ≠ 0

end FileSystem

/-! ## The buffer -/

/-- A call of `sys_read` keeps to the caller's buffer: it returns at most `nbytes`, and stores at most that many
bytes, from the start of the buffer on; for a negative number, none. -/
def KeepsToBuffer (k : Kernel) (esp fd nbytes : Int) : Prop :=
  ∀ k' v bytes, sysRead k esp fd false nbytes = some (k', v, bytes) →
    v ≤ max nbytes 0 ∧ k'.userMem = k.userMem ∧
      ∀ (m : Nat → UInt8) (buf a : Nat), a < buf ∨ buf + (max nbytes 0).toNat ≤ a → storeAll m buf bytes a = m a

/-- `file_read` does not get to the loop of `read_data`. -/
def StopsEarly (fs : FileSystem) (file : Files) : Prop :=
  fs.AtFileEnd file.inode file.filePosition ∨ fs.Refuses file.inode false ∨
    fs.inodeLength file.inode < file.filePosition

/-- When a call keeps to the buffer: a file is not asked for a negative number of bytes, unless it stops before it
reads any, and the name of the next directory entry is not longer than the buffer. -/
def BufferFits (k : Kernel) (esp fd nbytes : Int) : Prop :=
  let file := (k.pcbs (stackOwner esp)).fda fd
  match file.fopsPtr with
  | .filesysTable => 0 ≤ nbytes ∨ StopsEarly k.fs file
  | .filedirTable => ∀ d, k.fs.readDentryByIndex k.globalFileIndex = some d →
      ((effectiveName d).length : Int) ≤ max nbytes 0
  | .stdInTable | .stdOutTable | .rtcTable | .badTable => True

section Drivers
variable {k : Kernel} {esp fd nbytes : Int}

theorem fileRead_of_atEnd
    (h : k.fs.AtFileEnd ((k.pcbs (stackOwner esp)).fda fd).inode ((k.pcbs (stackOwner esp)).fda fd).filePosition) :
    fileRead k esp fd nbytes = (k, 0, []) := by
  unfold AtFileEnd fileLength at h
  unfold fileRead
  dsimp only
  rw [if_pos h]

/-- `file_read` before the end of the file. -/
theorem fileRead_of_not_atEnd
    (h : ¬ k.fs.AtFileEnd ((k.pcbs (stackOwner esp)).fda fd).inode ((k.pcbs (stackOwner esp)).fda fd).filePosition) :
    fileRead k esp fd nbytes =
      let file := (k.pcbs (stackOwner esp)).fda fd
      let r := k.fs.readData file.inode file.filePosition false (nbytes % 2 ^ 32).toNat
      (k.modifyPcb (stackOwner esp) fun pcb =>
        pcb.modifyFile fd fun f => { f with filePosition := u32 (f.filePosition + r.1) }, i32 r.1, r.2) := by
  unfold AtFileEnd fileLength at h
  unfold fileRead
  dsimp only
  rw [if_neg h]

theorem fileRead_userMem : (fileRead k esp fd nbytes).1.userMem = k.userMem := by
  rcases fileRead_frame k esp fd nbytes with h | ⟨pos, h⟩
  · rw [h]
  · rw [h]
    rfl

/-- The answer of a driver, compared with the size of the buffer. -/
theorem keepsToBuffer_iff {r : Kernel × Int × List UInt8} (h : sysRead k esp fd false nbytes = some r)
    (hmem : r.1.userMem = k.userMem) :
    KeepsToBuffer k esp fd nbytes ↔ r.2.1 ≤ max nbytes 0 ∧ r.2.2.length ≤ (max nbytes 0).toNat := by
  rw [← storeAll_frame_iff]
  constructor
  · intro hk
    obtain ⟨hv, -, hframe⟩ := hk r.1 r.2.1 r.2.2 h
    exact ⟨hv, hframe⟩
  · rintro ⟨hv, hframe⟩ k₁ v₁ bytes₁ h₁
    rw [h] at h₁
    cases h₁
    exact ⟨hv, hmem, hframe⟩

/-- The loop of `read_data` stores and returns at most what it was asked for; asked for a negative number, which is a
huge one, it stores bytes until block numbers run out. -/
theorem readLoop_within_iff (fs : FileSystem) (inode offset : Nat) (hlo : -2 ^ 31 ≤ nbytes) (hhi : nbytes < 2 ^ 31) :
    let r := fs.readLoop inode offset (nbytes % 2 ^ 32).toNat 0 (fs.cursorAt inode offset 0)
    (i32 r.1 ≤ max nbytes 0 ∧ r.2.length ≤ (max nbytes 0).toNat) ↔ 0 ≤ nbytes := by
  intro r
  constructor
  · rintro ⟨-, hlength⟩
    by_contra hneg
    obtain ⟨left, hleft⟩ : ∃ left, (nbytes % 2 ^ 32).toNat = left + 1 := ⟨(nbytes % 2 ^ 32).toNat - 1, by omega⟩
    have hne := readLoop_ne_nil fs inode offset left 0 (fs.cursorAt inode offset 0)
    rw [← hleft, ← List.length_pos_iff] at hne
    have hpos : 0 < r.2.length := hne
    omega
  · intro hnonneg
    have hlength : r.2.length ≤ (nbytes % 2 ^ 32).toNat := readLoop_length_le _ _ _ _ _ _
    refine ⟨?_, by omega⟩
    rcases readLoop_fst_cases fs inode offset (nbytes % 2 ^ 32).toNat with h | ⟨h, -⟩
    · rw [show r.1 = 0 from h]
      exact le_max_right nbytes 0
    · rw [show r.1 = (nbytes % 2 ^ 32).toNat from h]
      unfold i32
      omega

/-- A file: only the loop of `read_data` looks at the size. -/
theorem fileRead_keepsToBuffer_iff (hlo : -2 ^ 31 ≤ nbytes) (hhi : nbytes < 2 ^ 31)
    (h : sysRead k esp fd false nbytes = some (fileRead k esp fd nbytes)) :
    KeepsToBuffer k esp fd nbytes ↔ 0 ≤ nbytes ∨ StopsEarly k.fs ((k.pcbs (stackOwner esp)).fda fd) := by
  rw [keepsToBuffer_iff h fileRead_userMem]
  by_cases hend :
      k.fs.AtFileEnd ((k.pcbs (stackOwner esp)).fda fd).inode ((k.pcbs (stackOwner esp)).fda fd).filePosition
  · rw [fileRead_of_atEnd hend]
    exact ⟨fun _ => Or.inr (Or.inl hend), fun _ => ⟨le_max_right _ _, Nat.zero_le _⟩⟩
  · rw [fileRead_of_not_atEnd hend]
    dsimp only
    generalize (k.pcbs (stackOwner esp)).fda fd = file at hend ⊢
    by_cases hrefuses : k.fs.Refuses file.inode false
    · rw [readData_of_refuses hrefuses]
      refine ⟨fun _ => Or.inr (Or.inr (Or.inl hrefuses)), fun _ => ⟨?_, Nat.zero_le _⟩⟩
      exact le_trans (by decide) (le_max_right nbytes 0)
    · by_cases hpast : k.fs.inodeLength file.inode < file.filePosition
      · rw [readData_of_gt hrefuses hpast]
        exact ⟨fun _ => Or.inr (Or.inr (Or.inr hpast)), fun _ => ⟨le_max_right nbytes 0, Nat.zero_le _⟩⟩
      · have hwithin := readLoop_within_iff k.fs file.inode file.filePosition hlo hhi
        dsimp only at hwithin
        rw [readData_of_le hrefuses (Nat.not_lt.mp hpast), hwithin]
        constructor
        · exact Or.inl
        · rintro (hnonneg | hearly | hearly | hearly)
          · exact hnonneg
          · exact absurd hearly hend
          · exact absurd hearly hrefuses
          · exact absurd hearly hpast

/-- A directory: the whole name of the next entry is stored. -/
theorem dirRead_keepsToBuffer_iff (h : sysRead k esp fd false nbytes = some (dirRead k)) :
    KeepsToBuffer k esp fd nbytes ↔ ∀ d, k.fs.readDentryByIndex k.globalFileIndex = some d →
      ((effectiveName d).length : Int) ≤ max nbytes 0 := by
  unfold dirRead at h
  cases hd : k.fs.readDentryByIndex k.globalFileIndex with
  | none =>
    rw [hd] at h
    dsimp only at h
    rw [keepsToBuffer_iff h rfl]
    refine ⟨fun _ d hd' => ?_, fun _ => ⟨le_max_right _ _, Nat.zero_le _⟩⟩
    cases hd'
  | some d =>
    rw [hd] at h
    dsimp only at h
    have hlen : d.filename.length = 32 := by
      unfold readDentryByIndex at hd
      split_ifs at hd
      cases hd
      exact filename_length _ _
    have hle : (effectiveName d).length ≤ 32 := hlen ▸ cstr_length_le d.filename
    rw [keepsToBuffer_iff h rfl, strnlen_filename hlen, List.length_take, hlen]
    constructor
    · rintro ⟨hv, -⟩ d' hd'
      cases hd'
      exact hv
    · intro hv
      have := hv d rfl
      exact ⟨this, by omega⟩

/-- A line from the keyboard is cut at the size of the buffer. -/
theorem terminalRead_keepsToBuffer (h : sysRead k esp fd false nbytes = terminalRead k false nbytes) :
    KeepsToBuffer k esp fd nbytes := by
  intro k' v bytes hread
  rw [h] at hread
  unfold terminalRead at hread
  by_cases hn : nbytes ≤ 0
  · rw [if_pos (Or.inl hn)] at hread
    cases hread
    exact ⟨by omega, rfl, (storeAll_frame_iff [] _).mpr (Nat.zero_le _)⟩
  · rw [if_neg (by simpa using hn)] at hread
    dsimp only at hread
    generalize hlen : (if ((k.terminals k.scheduledProcess).strlenBuf : Int) < nbytes then
      (k.terminals k.scheduledProcess).strlenBuf else nbytes.toNat) = len at hread
    have hle : (len : Int) ≤ nbytes := by
      split_ifs at hlen <;> omega
    by_cases hflag : (k.terminals k.scheduledProcess).keyFlag = 0
    · rw [if_pos hflag] at hread
      cases hread
    · rw [if_neg hflag] at hread
      cases hread
      refine ⟨by omega, rfl, (storeAll_frame_iff _ _).mpr ?_⟩
      simp only [bytesAt, List.length_map, List.length_range]
      omega

end Drivers

/-- **The buffer of a read call.** A call that reaches a driver keeps to the buffer exactly if it fits. -/
theorem sysRead_keepsToBuffer_iff {k : Kernel} {esp fd nbytes : Int} (hfd : 0 ≤ fd ∧ fd < fdaSize)
    (huse : ((k.pcbs (stackOwner esp)).fda fd).flags ≠ notInUse) (hlo : -2 ^ 31 ≤ nbytes) (hhi : nbytes < 2 ^ 31) :
    KeepsToBuffer k esp fd nbytes ↔ BufferFits k esp fd nbytes := by
  have hread : sysRead k esp fd false nbytes =
      ((k.pcbs (stackOwner esp)).fda fd).fopsPtr.read k esp fd nbytes := by
    unfold sysRead
    rw [if_neg (by omega), if_neg (by decide), if_neg huse]
  have hnone : ∀ k' v, k'.userMem = k.userMem → v ≤ 0 → sysRead k esp fd false nbytes = some (k', v, []) →
      KeepsToBuffer k esp fd nbytes := by
    intro k' v hmem hv h
    exact (keepsToBuffer_iff h hmem).mpr ⟨hv.trans (le_max_right nbytes 0), Nat.zero_le _⟩
  unfold BufferFits
  dsimp only
  cases hops : ((k.pcbs (stackOwner esp)).fda fd).fopsPtr with
  | stdInTable =>
    rw [hops] at hread
    exact iff_true_intro (terminalRead_keepsToBuffer hread)
  | stdOutTable =>
    rw [hops] at hread
    exact iff_true_intro (hnone k (-1) rfl (by decide) hread)
  | rtcTable =>
    rw [hops] at hread
    obtain ⟨dev, hdev⟩ := rtcRead_devicesOnly k
    refine iff_true_intro (hnone _ _ ?_ ?_ hread)
    · rw [hdev]
    · exact le_rfl
  | filesysTable =>
    rw [hops] at hread
    exact fileRead_keepsToBuffer_iff hlo hhi hread
  | filedirTable =>
    rw [hops] at hread
    exact dirRead_keepsToBuffer_iff hread
  | badTable =>
    rw [hops] at hread
    exact iff_true_intro (hnone k (-1) rfl (by decide) hread)

/-- All of `shell` into a buffer of its size. -/
theorem sysRead_keepsToBuffer_iff_shell : ∃ k, sysOpen shellProcess shellProcessEsp shellName 0 = some (k, 2) ∧
    (0 ≤ (2 : Int) ∧ 2 < fdaSize) ∧ ((k.pcbs (stackOwner shellProcessEsp)).fda 2).flags ≠ notInUse ∧
    KeepsToBuffer k shellProcessEsp 2 28 := by
  obtain ⟨k, hopen⟩ := shellProcess_open
  obtain ⟨-, hfd, hfile⟩ := sysOpen_openOn shellProcess_lookup shellDentry_filetype hopen (by decide)
  have huse : ((k.pcbs (stackOwner shellProcessEsp)).fda 2).flags ≠ notInUse := by
    rw [hfile]
    decide
  refine ⟨k, hopen, hfd, huse, (sysRead_keepsToBuffer_iff hfd huse (by decide) (by decide)).mpr ?_⟩
  unfold BufferFits
  dsimp only
  rw [hfile]
  exact Or.inl (by decide)

/-- A directory read into a buffer of size 0 stores a byte. -/
theorem dirRead_overruns : ∃ k, sysOpen dirProcesses (dirEsp 3) dot 0 = some (k, 2) ∧
    (sysRead k (dirEsp 3) 2 false 0).map (·.2) = some (1, dot) ∧ ¬ KeepsToBuffer k (dirEsp 3) 2 0 := by
  have hopen : ((sysOpen dirProcesses (dirEsp 3) dot 0).bind fun p =>
      (sysRead p.1 (dirEsp 3) 2 false 0).map fun r => (p.2, r.2)) = some (2, 1, dot) := by decide +kernel
  obtain ⟨⟨k, v⟩, hk, hr⟩ := Option.bind_eq_some_iff.mp hopen
  obtain ⟨⟨k', r⟩, hread, hv⟩ := Option.map_eq_some_iff.mp hr
  cases hv
  refine ⟨k, hk, by rw [hread]; rfl, ?_⟩
  intro h
  exact absurd (h _ _ _ hread).1 (by decide)

/-! ## The position -/

/-- A call of `file_read` moves the position of its descriptor by the number of bytes it returns, without wrapping,
and changes no descriptor when it returns `0` or `-1`. -/
def AdvancesBy (k : Kernel) (esp fd nbytes : Int) : Prop :=
  let file := (k.pcbs (stackOwner esp)).fda fd
  let k' := (fileRead k esp fd nbytes).1
  let v := (fileRead k esp fd nbytes).2.1
  (v = -1 ∨ v = 0 → ∀ pid i, (k'.pcbs pid).fda i = (k.pcbs pid).fda i) ∧
    (v ≠ -1 → v ≠ 0 → 0 < v ∧ file.filePosition + v.toNat < 2 ^ 32 ∧
      (k'.pcbs (stackOwner esp)).fda fd = { file with filePosition := file.filePosition + v.toNat } ∧
      ∀ pid i, ¬ (pid = stackOwner esp ∧ i = fd) → (k'.pcbs pid).fda i = (k.pcbs pid).fda i)

/-- The descriptors after a change to one. -/
theorem modifyPcb_modifyFile_fda (k : Kernel) (p fd : Int) (f : Files → Files) (pid i : Int) :
    ((k.modifyPcb p fun pcb => pcb.modifyFile fd f).pcbs pid).fda i =
      if pid = p ∧ i = fd then f ((k.pcbs p).fda fd) else (k.pcbs pid).fda i := by
  by_cases hp : pid = p
  · subst hp
    rw [Kernel.modifyPcb_pcbs_self, modifyFile_fda]
    by_cases hi : i = fd
    · rw [if_pos hi, if_pos ⟨rfl, hi⟩]
    · rw [if_neg hi, if_neg fun h => hi h.2]
  · rw [Kernel.modifyPcb_pcbs_of_ne _ _ hp, if_neg fun h => hp h.1]

section Position
variable {k : Kernel} {esp fd : Int} {inode pos : Nat}

/-- What `read_data` returns to a call that it does not refuse: `0`, or a number that neither the value nor the
position loses anything of. -/
theorem readData_fst_cases {fs : FileSystem} (hrefuses : ¬ fs.Refuses inode false) (pos n : Nat) :
    (fs.readData inode pos false n).1 = 0 ∨
      (fs.readData inode pos false n).1 < 2 ^ 31 ∧ pos + (fs.readData inode pos false n).1 < 2 ^ 32 := by
  by_cases hpast : fs.inodeLength inode < pos
  · rw [readData_of_gt hrefuses hpast]
    exact Or.inl rfl
  · rw [readData_of_le hrefuses (Nat.not_lt.mp hpast)]
    rcases readLoop_fst_cases fs inode pos n with h | ⟨h, hfit⟩
    · exact Or.inl h
    · rw [h]
      unfold readPos blockSize at hfit
      omega

/-- A position moved by what is returned, when neither wraps. -/
theorem advance_of_lt {p : Int} {file : Files} (hf : (k.pcbs p).fda fd = file) (hfile : file.filePosition < 2 ^ 32)
    {r : Nat} (hr : r = 0 ∨ r < 2 ^ 31 ∧ file.filePosition + r < 2 ^ 32) :
    let moved := { file with filePosition := u32 (file.filePosition + r) }
    (i32 r = -1 ∨ i32 r = 0 → ∀ pid i, (if pid = p ∧ i = fd then moved else (k.pcbs pid).fda i) = (k.pcbs pid).fda i) ∧
      (i32 r ≠ -1 → i32 r ≠ 0 → 0 < i32 r ∧ file.filePosition + (i32 r).toNat < 2 ^ 32 ∧
        moved = { file with filePosition := file.filePosition + (i32 r).toNat } ∧
        ∀ pid i, ¬ (pid = p ∧ i = fd) →
          (if pid = p ∧ i = fd then moved else (k.pcbs pid).fda i) = (k.pcbs pid).fda i) := by
  intro moved
  have hi32 : i32 r = r := by
    unfold i32
    omega
  have hmoved : moved = { file with filePosition := file.filePosition + r } := by
    simp only [moved, u32, Nat.mod_eq_of_lt (show file.filePosition + r < 2 ^ 32 by omega)]
  rw [hi32, hmoved, Int.toNat_natCast]
  constructor
  · intro h pid i
    split_ifs with hpi
    · rw [hpi.1, hpi.2, hf, show r = 0 by omega, Nat.add_zero]
    · rfl
  · intro _ h0
    refine ⟨by omega, by omega, rfl, ?_⟩
    intro pid i hpi
    rw [if_neg hpi]

/-- One call: the position is right unless `read_data` refuses the inode. -/
theorem fileRead_advancesBy_iff (hfile : ((k.pcbs (stackOwner esp)).fda fd).filePosition < 2 ^ 32) (nbytes : Int) :
    AdvancesBy k esp fd nbytes ↔
      k.fs.AtFileEnd ((k.pcbs (stackOwner esp)).fda fd).inode ((k.pcbs (stackOwner esp)).fda fd).filePosition ∨
        ¬ k.fs.Refuses ((k.pcbs (stackOwner esp)).fda fd).inode false := by
  unfold AdvancesBy
  by_cases hend :
      k.fs.AtFileEnd ((k.pcbs (stackOwner esp)).fda fd).inode ((k.pcbs (stackOwner esp)).fda fd).filePosition
  · rw [fileRead_of_atEnd hend]
    exact ⟨fun _ => Or.inl hend, fun _ => ⟨fun _ _ _ => rfl, fun _ h => absurd rfl h⟩⟩
  · rw [fileRead_of_not_atEnd hend]
    dsimp only
    simp only [modifyPcb_modifyFile_fda, and_self, if_true]
    generalize hf : (k.pcbs (stackOwner esp)).fda fd = file at hend hfile ⊢
    by_cases hrefuses : k.fs.Refuses file.inode false
    · rw [readData_of_refuses hrefuses]
      constructor
      · rintro ⟨h, -⟩
        -- the position has moved back by one
        have hsame := h (Or.inl (by decide)) (stackOwner esp) fd
        rw [if_pos ⟨rfl, rfl⟩, hf] at hsame
        have hpos := congrArg Files.filePosition hsame
        dsimp only at hpos
        unfold u32 minusOne at hpos
        omega
      · rintro (h | h)
        · exact absurd h hend
        · exact absurd hrefuses h
    · refine ⟨fun _ => Or.inr hrefuses, fun _ => ?_⟩
      exact advance_of_lt hf hfile (readData_fst_cases hrefuses file.filePosition (nbytes % 2 ^ 32).toNat)

/-- A read through a descriptor, as a step. -/
def readStep (esp fd : Int) (k : Kernel) (nbytes : Int) : Option Kernel :=
  (sysRead k esp fd false nbytes).map (·.1)

/-- A read leaves the descriptor open on its file, at a 32-bit position. -/
theorem readStep_openOn {k' : Kernel} (h : OpenOn k esp fd inode pos) (hpos : pos < 2 ^ 32) {nbytes : Int}
    (hstep : readStep esp fd k nbytes = some k') : k'.fs = k.fs ∧ ∃ pos' < 2 ^ 32, OpenOn k' esp fd inode pos' := by
  rw [readStep, sysRead_of_openOn h, Option.map_some, Option.some_inj] at hstep
  subst hstep
  by_cases hend :
      k.fs.AtFileEnd ((k.pcbs (stackOwner esp)).fda fd).inode ((k.pcbs (stackOwner esp)).fda fd).filePosition
  · rw [fileRead_of_atEnd hend]
    exact ⟨rfl, pos, hpos, h⟩
  · rw [fileRead_of_not_atEnd hend]
    dsimp only
    generalize (k.fs.readData _ _ false (nbytes % 2 ^ 32).toNat).1 = r
    refine ⟨rfl, u32 (pos + r), Nat.mod_lt _ (by decide), h.1, ?_⟩
    rw [modifyPcb_modifyFile_fda, if_pos ⟨rfl, rfl⟩, h.2]

/-- **Reads and the position.** After any reads through a descriptor that is open on a file, the next one moves the
position by what it returns, and leaves it alone when it fails, exactly if the position is at the end of the file or
`read_data` does not refuse the inode. -/
theorem reads_advance_iff {k' : Kernel} (hopen : OpenOn k esp fd inode pos) (hpos : pos < 2 ^ 32)
    (hrun : Reach (readStep esp fd) (fun _ _ => True) k k') :
    k'.fs = k.fs ∧ ∃ pos' < 2 ^ 32, OpenOn k' esp fd inode pos' ∧ ∀ nbytes,
      sysRead k' esp fd false nbytes = some (fileRead k' esp fd nbytes) ∧
      (AdvancesBy k' esp fd nbytes ↔ k.fs.AtFileEnd inode pos' ∨ ¬ k.fs.Refuses inode false) := by
  have hinv : k'.fs = k.fs ∧ ∃ pos' < 2 ^ 32, OpenOn k' esp fd inode pos' := by
    apply hrun.invariant (I := fun k' => k'.fs = k.fs ∧ ∃ pos' < 2 ^ 32, OpenOn k' esp fd inode pos')
    · exact ⟨rfl, pos, hpos, hopen⟩
    · rintro k₁ nbytes k₂ ⟨hfs, pos₁, hpos₁, hopen₁⟩ - hstep
      obtain ⟨hfs₂, hopen₂⟩ := readStep_openOn hopen₁ hpos₁ hstep
      exact ⟨hfs₂.trans hfs, hopen₂⟩
  obtain ⟨hfs, pos', hpos', hopen'⟩ := hinv
  refine ⟨hfs, pos', hpos', hopen', ?_⟩
  intro nbytes
  refine ⟨sysRead_of_openOn hopen' nbytes, ?_⟩
  have hfile : ((k'.pcbs (stackOwner esp)).fda fd).filePosition < 2 ^ 32 := by
    rw [hopen'.2]
    exact hpos'
  rw [fileRead_advancesBy_iff hfile, hopen'.2, hfs]

end Position

/-- Reads of `shell`, from its start. -/
theorem reads_advance_iff_shell : ∃ k k', sysOpen shellProcess shellProcessEsp shellName 0 = some (k, 2) ∧
    OpenOn k shellProcessEsp 2 shellDentry.inodeNum 0 ∧
    Reach (readStep shellProcessEsp 2) (fun _ _ => True) k k' ∧
    ∀ nbytes, AdvancesBy k' shellProcessEsp 2 nbytes := by
  obtain ⟨k, hopen⟩ := shellProcess_open
  obtain ⟨hfs, ho⟩ := sysOpen_openOn shellProcess_lookup shellDentry_filetype hopen (by decide)
  have hread := sysRead_of_openOn ho 4
  have hrun : Reach (readStep shellProcessEsp 2) (fun _ _ => True) k (fileRead k shellProcessEsp 2 4).1 :=
    .tail 4 (.refl k) trivial (by rw [readStep, hread]; rfl)
  obtain ⟨-, pos, -, -, hiff⟩ := reads_advance_iff ho (by decide) hrun
  refine ⟨k, _, hopen, ho, hrun, fun nbytes => (hiff nbytes).2.mpr (Or.inr ?_)⟩
  rw [hfs]
  exact not_refuses (by decide) (by decide +kernel)

/-- The small image, with inode number 5 in the entry of `shell`. -/
def danglingImage : FileSystem := { shellImage with mem := Function.update shellImage.mem 4196 5 }

/-- A process of that image. -/
def danglingProcess : Kernel := initPcb (Kernel.atLoad danglingImage) 3 []

/-- The image is accepted and `shell` is opened; a read returns `-1` and moves the position to the last of all. -/
theorem failed_read_moves : danglingImage.initFileSystem 4096 16384 = (danglingImage, 0) ∧
    ∃ k, sysOpen danglingProcess shellProcessEsp shellName 0 = some (k, 2) ∧
      OpenOn k shellProcessEsp 2 5 0 ∧ (fileRead k shellProcessEsp 2 4).2.1 = -1 ∧
      (((fileRead k shellProcessEsp 2 4).1.pcbs (stackOwner shellProcessEsp)).fda 2).filePosition = 2 ^ 32 - 1 ∧
      ¬ AdvancesBy k shellProcessEsp 2 4 := by
  have haccept : danglingImage.initFileSystem 4096 16384 = (danglingImage, 0) := by
    rw [initFileSystem_eq, if_neg (by decide +kernel)]
    rfl
  have hlookup : danglingProcess.fs.lookup shellName = some (danglingImage.direntry 0) := by decide +kernel
  obtain ⟨k, hopen⟩ : ∃ k, sysOpen danglingProcess shellProcessEsp shellName 0 = some (k, 2) := ⟨_, rfl⟩
  obtain ⟨hfs, ho⟩ := sysOpen_openOn hlookup (by decide +kernel) hopen (by decide)
  rw [show (danglingImage.direntry 0).inodeNum = 5 by decide +kernel] at ho
  have hend : ¬ k.fs.AtFileEnd ((k.pcbs (stackOwner shellProcessEsp)).fda 2).inode
      ((k.pcbs (stackOwner shellProcessEsp)).fda 2).filePosition := by
    rw [ho.2, hfs]
    rintro ⟨-, h⟩
    exact h (by decide +kernel)
  have hrefuses : k.fs.Refuses ((k.pcbs (stackOwner shellProcessEsp)).fda 2).inode false := by
    rw [ho.2, hfs]
    exact Or.inr (Or.inr (by decide +kernel))
  refine ⟨haccept, k, hopen, ho, ?_, ?_, ?_⟩
  · rw [fileRead_of_not_atEnd hend]
    dsimp only
    rw [readData_of_refuses hrefuses]
    decide
  · rw [fileRead_of_not_atEnd hend]
    dsimp only
    rw [readData_of_refuses hrefuses, modifyPcb_modifyFile_fda, if_pos ⟨rfl, rfl⟩, ho.2]
    decide
  · rw [fileRead_advancesBy_iff (by rw [ho.2]; decide)]
    rintro (h | h)
    · exact hend h
    · exact h hrefuses

end BasicOs
