import BasicOs.Company
import BasicOs.Exceptions
import BasicOs.FileData

/-!
# The programs `cat` and `ls`

Both copy from a descriptor to the screen until a read returns 0.

* `cat`, `ls` : the two `main` functions, as programs that make calls; `Copier` is the loop that they share;
* `contents` : what the reads of a directory entry hand over, up to the first that returns 0;
* `Feeds` : a descriptor hands over these chunks, one read after the other;
* `Feeds.copied` : the loop writes them all, and then exits;
* `cat_alone`, `ls_alone` : what the two programs put out, and how many calls they make;
* `Launch.accomplishes` : in company they put out the same;
* `cat_in_company`, `ls_in_company` : so do they when they are started from a shell.
-/

namespace BasicOs
open Run FileSystem Bytes Client

/-! ## The programs -/

/-- `ece391_fdputs`. -/
def fdputs (fd : Int) (s : List UInt8) : Call := .write fd (some (ofList s)) (strlen s)

/-- Where a program is in its loop, with the buffer as it is there. -/
inductive Copying
  | read (fd : Int) (buf : Nat → UInt8)
  | write (fd : Int) (buf : Nat → UInt8) (cnt : Int)
  | puts (s : List UInt8) (status : Int)
  | exit (status : Int)

/-- What the loops do not share: the bytes asked for, the text when a read fails, and whether `buf[cnt] = '\n'`. -/
structure Copier where
  size : Int
  failed : List UInt8
  newline : Bool

/-- `while (0 != (cnt = ece391_read (fd, buf, size)))`. -/
def Copier.program (p : Copier) : Program Copying Call Answer where
  call
    | .read fd _ => some (.read fd p.size)
    | .write _ buf cnt => some (.write 1 (some buf) cnt)
    | .puts s _ => some (fdputs 1 s)
    | .exit _ => none
  after
    | .read fd buf, (cnt, bytes) =>
      let buf := storeAll buf 0 bytes
      if cnt = 0 then .exit 0
      else if cnt = -1 then .puts p.failed 3
      -- -1 is the only negative value that a read returns here
      else if p.newline then .write fd (Function.update buf cnt.toNat chNewline) (cnt + 1)
      else .write fd buf cnt
    | .write fd buf _, (v, _) => if v = -1 then .exit 3 else .read fd buf
    | .puts _ status, _ => .exit status
    | .exit status, _ => .exit status

def catLoop : Copier := { size := 1024, failed := chars "file read failed\n", newline := false }

def lsLoop : Copier := { size := 32, failed := chars "directory entry read failed\n", newline := true }

/-- Where `main` of `ece391cat.c` is. -/
inductive Cat
  | getargs (buf : Nat → UInt8)
  | open (buf : Nat → UInt8)
  | copying (c : Copying)

def cat : Program Cat Call Answer where
  call
    | .getargs _ => some (.getargs 1024)
    | .open buf => some (.open (cstr (bytesAt buf 1024)))
    | .copying c => catLoop.program.call c
  after
    | .getargs buf, (v, bytes) =>
      if v ≠ 0 then .copying (.puts (chars "could not read arguments\n") 3) else .open (storeAll buf 0 bytes)
    | .open buf, (fd, _) =>
      if fd = -1 then .copying (.puts (chars "file not found\n") 2) else .copying (.read fd buf)
    | .copying c, b => .copying (catLoop.program.after c b)

/-- Where `main` of `ece391ls.c` is. -/
inductive Ls
  | open (buf : Nat → UInt8)
  | copying (c : Copying)

def ls : Program Ls Call Answer where
  call
    | .open _ => some (.open dot)
    | .copying c => lsLoop.program.call c
  after
    | .open buf, (fd, _) =>
      if fd = -1 then .copying (.puts (chars "directory open failed\n") 2) else .copying (.read fd buf)
    | .copying c, b => .copying (lsLoop.program.after c b)

/-! ## What there is to be read -/

/-- How many chunks of `size` bytes are read of a file, which is read from the start even if it is empty. -/
def chunkCount (length size : Nat) : Nat := max 1 ((length + size - 1) / size)

/-- Chunk `j` of a file. -/
def fileChunk (fs : FileSystem) (inode size j : Nat) : List UInt8 :=
  (List.range size).map fun b => fs.fileByte inode (size * j + b)

/-- The chunks that reads of `size` bytes of the entry `d` hand over, up to the first that returns 0. A directory is
read from entry `index` on; a file is read to the end of a chunk. -/
def contents (fs : FileSystem) (d : Dentry) (size index : Nat) : List (List UInt8) :=
  if d.filetype = 0 then []
  else if d.filetype = 1 then
    ((List.range' index (fs.dirEntryCount - index)).map fun j => effectiveName (fs.direntry j)).takeWhile (· ≠ [])
  else (List.range (chunkCount (fs.inodeLength d.inodeNum) size)).map fun j => fileChunk fs d.inodeNum size j

variable {fs : FileSystem} {w w' : View}

/-- Reads of `n` bytes through `fd` hand over these chunks, and then 0 is returned. -/
inductive Feeds (fs : FileSystem) (fd n : Int) : View → List (List UInt8) → View → Prop
  | stop {w w' : View} {bytes : List UInt8} (hr : w.read fs fd n = some (w', 0, bytes)) : Feeds fs fd n w [] w'
  | chunk {w w₁ w' : View} {c : List UInt8} {cs : List (List UInt8)} (hc : c ≠ [])
      (hr : w.read fs fd n = some (w₁, (c.length : Int), c)) (rest : Feeds fs fd n w₁ cs w') :
      Feeds fs fd n w (c :: cs) w'

variable (fs) in
/-- What is read does not depend on the screen. -/
theorem View.read_screen (w : View) (fd n : Int) (s : LoneScreen) :
    ({ w with screen := s } : View).read fs fd n = (w.read fs fd n).map fun r => ({ r.1 with screen := s }, r.2) := by
  have hfile : ({ w with screen := s } : View).file fd = w.file fd := rfl
  unfold View.read
  rw [hfile]
  by_cases h0 : fd = 0
  · rw [if_pos h0, if_pos h0]
    rfl
  · rw [if_neg h0, if_neg h0]
    cases w.file fd with
    | none => rfl
    | some f =>
      dsimp only
      split_ifs
      · rfl
      · cases w.index <;> rfl
      · rfl

section Loop
variable (p : Copier) {fd : Int} {chunks : List (List UInt8)}

/-- A chunk as the loop writes it. -/
def Copier.line (p : Copier) (c : List UInt8) : List UInt8 := if p.newline then c ++ [chNewline] else c

theorem bytesAt_storeAll (buf : Nat → UInt8) (c : List UInt8) : bytesAt (storeAll buf 0 c) c.length = c := by
  refine List.ext_getElem (by simp [bytesAt]) fun i hi hi' => ?_
  simp [bytesAt, storeAll, hi']

theorem bytesAt_storeAll_update (buf : Nat → UInt8) (c : List UInt8) (v : UInt8) :
    bytesAt (Function.update (storeAll buf 0 c) c.length v) (c.length + 1) = c ++ [v] := by
  unfold bytesAt
  rw [List.range_succ, List.map_append, List.map_singleton, Function.update_self]
  congr 1
  refine (List.map_congr_left fun i hi => ?_).trans (bytesAt_storeAll buf c)
  exact Function.update_of_ne (List.mem_range.mp hi).ne _ _

/-- One round of the loop. -/
theorem Copier.round {w₁ : View} {c : List UInt8} (hc : c ≠ [])
    (hr : w.read fs fd p.size = some (w₁, (c.length : Int), c)) (buf : Nat → UInt8) :
    ∃ calls buf', Makes (View.call fs) p.program (w, .read fd buf) calls
        ({ w₁ with screen := typed w₁.screen (p.line c) }, .read fd buf') ∧
      (calls.flatMap Call.output = p.line c ∧ calls.length = 2) ∧
      ∀ call ∈ calls, call.room ≤ max (p.size % 2 ^ 32).toNat filenameLen := by
  have hpos : 0 < c.length := List.length_pos_of_ne_nil hc
  obtain ⟨b, n, hb, hline, hn⟩ : ∃ b n, p.program.after (.read fd buf) (c.length, c) = .write fd b n ∧
      bytesAt b n.toNat = p.line c ∧ 0 < n := by
    unfold Copier.program Copier.line
    dsimp only
    rw [if_neg (by omega), if_neg (by omega)]
    split_ifs
    · exact ⟨_, _, rfl, bytesAt_storeAll_update buf c chNewline, by omega⟩
    · exact ⟨_, _, rfl, bytesAt_storeAll buf c, by omega⟩
  have hwrite : w₁.call fs (.write 1 (some b) n) =
      some ({ w₁ with screen := typed w₁.screen (p.line c) }, n, []) := by
    unfold View.call View.write
    dsimp only
    rw [if_pos rfl, if_neg (by omega), hline]
  refine ⟨[.read fd p.size, .write 1 (some b) n], b, .call rfl hr ?_, ⟨?_, rfl⟩, ?_⟩
  · rw [hb]
    refine .call rfl hwrite ?_
    rw [show p.program.after (.write fd b n) (n, []) = .read fd b from if_neg (by omega)]
    exact .done _
  · rw [List.flatMap_cons, List.flatMap_singleton]
    exact (if_pos ⟨rfl, hn⟩).trans hline
  · intro call hcall
    rcases List.mem_cons.mp hcall with rfl | hcall
    · exact Nat.le_refl _
    · rw [List.mem_singleton.mp hcall]
      exact Nat.zero_le _

/-- **The loop** writes what it is handed over, and exits. -/
theorem Feeds.copied (h : Feeds fs fd p.size w chunks w') (s : LoneScreen) (buf : Nat → UInt8) :
    ∃ calls w₁, Makes (View.call fs) p.program ({ w with screen := s }, .read fd buf) calls (w₁, .exit 0) ∧
      (calls.flatMap Call.output = chunks.flatMap p.line ∧ calls.length = 2 * chunks.length + 1) ∧
      ∀ call ∈ calls, call.room ≤ max (p.size % 2 ^ 32).toNat filenameLen := by
  induction h generalizing s buf with
  | @stop w w' bytes hr =>
    have hread := w.read_screen fs fd p.size s
    rw [hr, Option.map_some] at hread
    have hafter : p.program.after (.read fd buf) ((0 : Int), bytes) = .exit 0 := by
      simp [Copier.program]
    refine ⟨[.read fd p.size], { w' with screen := s }, .call rfl hread ?_, ⟨rfl, rfl⟩, fun call hcall => ?_⟩
    · rw [hafter]
      exact .done _
    · rw [List.mem_singleton.mp hcall]
      exact Nat.le_refl _
  | @chunk w w₁ w' c cs hc hr _ ih =>
    have hread := w.read_screen fs fd p.size s
    rw [hr, Option.map_some] at hread
    obtain ⟨calls, buf', hround, ⟨hout, hlen⟩, hroom⟩ := p.round hc hread buf
    obtain ⟨calls', w₂, hrest, ⟨hout', hlen'⟩, hroom'⟩ := ih (typed s (p.line c)) buf'
    refine ⟨calls ++ calls', w₂, hround.append hrest, ⟨?_, ?_⟩, ?_⟩
    · rw [List.flatMap_append, List.flatMap_cons, hout, hout']
    · rw [List.length_append, List.length_cons, hlen, hlen']
      omega
    · intro call hcall
      exact (List.mem_append.mp hcall).elim (hroom call) (hroom' call)

end Loop

/-! ## What the reads hand over -/

theorem View.file_setFile {fd : Int} (h : 2 ≤ fd ∧ fd ≤ 7) (w : View) (o : Option OpenFile) :
    (w.setFile fd o).file fd = o := by
  unfold View.file View.setFile
  rw [if_pos h]
  exact Function.update_self ..

section Reads
variable {fd : Int} {f : OpenFile} (h0 : fd ≠ 0) (hf : w.file fd = some f)
include h0 hf

theorem feeds_rtc (ht : f.dentry.filetype = 0) (n : Int) : Feeds fs fd n w [] w := by
  have hr : w.read fs fd n = some (w, 0, []) := by
    unfold View.read
    rw [if_neg h0, hf]
    exact if_pos ht
  exact .stop hr

variable (fs) in
theorem View.read_directory (ht : f.dentry.filetype = 1) {i : Nat} (hi : w.index = some i) (n : Int) :
    w.read fs fd n = some ({ w with index := some (nextIndex fs i) }, listing fs i) := by
  unfold View.read
  rw [if_neg h0, hf]
  dsimp only
  rw [if_neg (by omega), if_pos ht, hi]
  rfl

omit hf in
/-- The names from entry `i` on. -/
theorem feeds_directory (ht : f.dentry.filetype = 1) (n : Int) : ∀ (m i : Nat) (w : View), w.file fd = some f →
    w.index = some i → fs.dirEntryCount - i = m →
    ∃ w', Feeds fs fd n w
      (((List.range' i m).map fun j => effectiveName (fs.direntry j)).takeWhile (· ≠ [])) w'
  | 0, i, w, hf, hi, hm => by
    have hr := View.read_directory fs h0 hf ht hi n
    unfold listing at hr
    rw [if_neg (by omega)] at hr
    exact ⟨_, .stop hr⟩
  | m + 1, i, w, hf, hi, hm => by
    have hr := View.read_directory fs h0 hf ht hi n
    unfold listing nextIndex at hr
    rw [if_pos (by omega), if_pos (by omega)] at hr
    rw [List.range'_succ, List.map_cons]
    by_cases hname : effectiveName (fs.direntry i) = []
    · rw [hname] at hr ⊢
      exact ⟨_, .stop hr⟩
    · obtain ⟨w', hrest⟩ := feeds_directory ht n m (i + 1) { w with index := some (i + 1) } hf rfl (by omega)
      rw [List.takeWhile_cons_of_pos (by simpa using hname)]
      exact ⟨w', .chunk hname hr hrest⟩

omit h0 hf in
/-- A read within the file, or at its start, gets all it asks for. -/
theorem fileCall_chunk (hwf : WellFormed fs) {inode : Nat} (hinode : inode < fs.inodeCount) {size q : Nat}
    (h4 : size % 4 = 0) (hpos : 0 < size) (hq : size * q = 1022 * blockSize) {j : Nat}
    (hj : j = 0 ∨ size * j < fs.inodeLength inode) :
    fileCall fs inode (size * j) (false, size) =
      (size * (j + 1), (size : Int), fileChunk fs inode size j) := by
  have hmax := hwf.length_le inode hinode
  have hq0 : 0 < q := Nat.pos_of_mul_pos_left (by rw [hq]; decide)
  have hjq : j < q := by
    rcases hj with rfl | hj
    · exact hq0
    · exact Nat.lt_of_mul_lt_mul_left (hj.trans_le (hmax.trans hq.ge))
  have hnext : size * j + size ≤ 1022 * blockSize := by
    rw [← hq, ← Nat.mul_succ]
    exact Nat.mul_le_mul_left _ hjq
  have hmod : size * j % 4 = 0 := by rw [Nat.mul_mod, h4, Nat.zero_mul]
  have hoffset : size * j ≤ fs.inodeLength inode := by
    rcases hj with rfl | hj
    · exact Nat.zero_le _
    · exact hj.le
  have hfit : readPos (size * j) size / blockSize ≤ 1022 := by
    simp only [readPos, blockSize] at hnext ⊢
    omega
  have hread := readData_of_fits hwf.bootBlock_ne_zero hinode hoffset (Or.inr hfit)
  have hbytes := (readBytes_eq_iff fs inode (size * j) size).mpr fun b _ hb => by omega
  have hsize : (((size : Int) % 2 ^ 32).toNat) = size := by
    simp only [blockSize] at hnext
    omega
  have hi32 : i32 size = size := by
    unfold i32
    simp only [blockSize] at hnext
    omega
  unfold fileCall
  dsimp only
  rw [if_neg (by decide), hwf.lengthWord_eq, if_neg (by rcases hj with rfl | hj <;> omega), hsize, hread, hbytes, hi32,
    ← fileChunk]
  simp only [blockSize] at hnext
  unfold u32
  rw [Nat.mod_eq_of_lt (by omega), Nat.mul_succ]

omit h0 hf in
/-- After the last chunk 0 is returned. -/
theorem fileCall_end (hwf : WellFormed fs) {inode : Nat} (hinode : inode < fs.inodeCount) {pos : Nat}
    (hlt : pos < 2 ^ 32) (hpos : 0 < pos) (hend : fs.inodeLength inode ≤ pos) (n : Int) :
    fileCall fs inode pos (false, n) = (pos, 0, []) := by
  unfold fileCall
  dsimp only
  rw [if_neg (by decide), hwf.lengthWord_eq]
  by_cases hlen : fs.inodeLength inode = 0
  · rw [if_neg (by omega), readData_of_gt (not_refuses hwf.bootBlock_ne_zero hinode) (by omega)]
    dsimp only
    rw [Nat.add_zero, u32, Nat.mod_eq_of_lt hlt]
    rfl
  · rw [if_pos ⟨hend, hlen⟩]

omit h0 hf in
theorem chunkCount_le {length size q : Nat} (hpos : 0 < size) (hq : 0 < q) (hle : length ≤ size * q) :
    chunkCount length size ≤ q := by
  refine Nat.max_le.mpr ⟨hq, Nat.lt_succ_iff.mp ((Nat.div_lt_iff_lt_mul hpos).mpr ?_)⟩
  rw [Nat.succ_mul, Nat.mul_comm]
  omega

omit h0 hf in
theorem le_mul_chunkCount {length size : Nat} (hpos : 0 < size) : length ≤ size * chunkCount length size := by
  have hlt := Nat.lt_mul_div_succ (length + size - 1) hpos
  rw [Nat.mul_add] at hlt
  have hle : size * ((length + size - 1) / size) ≤ size * chunkCount length size :=
    Nat.mul_le_mul_left _ (Nat.le_max_right _ _)
  omega

omit h0 hf in
theorem lt_of_lt_chunkCount {length size j : Nat} (hpos : 0 < size) (h : j < chunkCount length size) :
    j = 0 ∨ size * j < length := by
  rcases lt_max_iff.mp h with h | h
  · exact Or.inl (by omega)
  · right
    have hle := (Nat.le_div_iff_mul_le hpos).mp (Nat.succ_le_of_lt h)
    rw [Nat.succ_mul, Nat.mul_comm] at hle
    omega

omit hf in
/-- The chunks from chunk `j` on. -/
theorem feeds_file (hwf : WellFormed fs) {d : Dentry} (ht : d.filetype = 2) (hinode : d.inodeNum < fs.inodeCount)
    (hfd : 2 ≤ fd ∧ fd ≤ 7) {size q : Nat} (h4 : size % 4 = 0) (hpos : 0 < size) (hq : size * q = 1022 * blockSize) :
    ∀ (n j : Nat) (w : View), w.file fd = some ⟨d, size * j⟩ →
      j + n = chunkCount (fs.inodeLength d.inodeNum) size →
      ∃ w', Feeds fs fd size w ((List.range' j n).map fun j => fileChunk fs d.inodeNum size j) w' := by
  have hread : ∀ {w : View} {pos : Nat}, w.file fd = some ⟨d, pos⟩ → w.read fs fd size =
      some (w.setFile fd (some ⟨d, (fileCall fs d.inodeNum pos (false, size)).1⟩),
        (fileCall fs d.inodeNum pos (false, size)).2) := by
    intro w pos hf
    unfold View.read
    rw [if_neg h0, hf]
    dsimp only
    rw [if_neg (by omega), if_neg (by omega)]
  have hq0 : 0 < q := Nat.pos_of_mul_pos_left (by rw [hq]; decide)
  have hmax := hwf.length_le d.inodeNum hinode
  have hlt : size * chunkCount (fs.inodeLength d.inodeNum) size < 2 ^ 32 := by
    have hle := Nat.mul_le_mul_left size (chunkCount_le hpos hq0 (hmax.trans hq.ge))
    simp only [blockSize] at hq
    omega
  intro n
  induction n with
  | zero =>
    intro j w hf hj
    have hr := hread hf
    have hj0 : 0 < j := by
      rw [show j = chunkCount (fs.inodeLength d.inodeNum) size from hj]
      exact Nat.le_max_left _ _
    rw [show j = chunkCount (fs.inodeLength d.inodeNum) size from hj] at hr hj0
    rw [fileCall_end hwf hinode hlt (Nat.mul_pos hpos hj0) (le_mul_chunkCount hpos)] at hr
    exact ⟨_, .stop hr⟩
  | succ n ih =>
    intro j w hf hj
    have hr := hread hf
    rw [fileCall_chunk hwf hinode h4 hpos hq (lt_of_lt_chunkCount hpos (by omega))] at hr
    have hlen : (fileChunk fs d.inodeNum size j).length = size := by
      unfold fileChunk
      rw [List.length_map, List.length_range]
    have hchunk : fileChunk fs d.inodeNum size j ≠ [] := by
      intro he
      rw [he] at hlen
      exact hpos.ne hlen
    obtain ⟨w', hrest⟩ := ih (j + 1) _ (View.file_setFile hfd w _) (by omega)
    rw [List.range'_succ, List.map_cons]
    refine ⟨w', .chunk hchunk ?_ hrest⟩
    rw [hlen]
    exact hr

end Reads

/-- An entry that has just been opened hands over its contents. -/
theorem feeds_contents (hwf : WellFormed fs) {d : Dentry} (hmem : d ∈ fs.slots) (hname : effectiveName d ≠ [])
    (htype : d.filetype ≤ 2) {fd : Int} (hfd : 2 ≤ fd ∧ fd ≤ 7) (hf : w.file fd = some ⟨d, 0⟩) {i : Nat}
    (hi : d.filetype = 1 → w.index = some i) {size q : Nat} (h4 : size % 4 = 0) (hpos : 0 < size)
    (hq : size * q = 1022 * blockSize) : ∃ w', Feeds fs fd size w (contents fs d size i) w' := by
  have h0 : fd ≠ 0 := by omega
  obtain ht | ht | ht : d.filetype = 0 ∨ d.filetype = 1 ∨ d.filetype = 2 := by omega
  · unfold contents
    rw [if_pos ht]
    exact ⟨w, feeds_rtc h0 hf ht size⟩
  · unfold contents
    rw [if_neg (by omega), if_pos ht]
    exact feeds_directory (f := ⟨d, 0⟩) h0 ht size _ i w hf (hi ht) rfl
  · unfold contents
    rw [if_neg (by omega), if_neg (by omega), List.range_eq_range']
    exact feeds_file h0 hwf ht (hwf.inode_lt d hmem hname ht) hfd h4 hpos hq _ 0 w hf (Nat.zero_add _)

/-! ## Alone -/

/-- What a program puts out, the status it exits with, how many calls it makes, and how much room in its buffer these
need. -/
structure Outcome where
  text : List UInt8
  status : Int
  calls : Nat
  room : Nat

/-- What `cat` does with its arguments. -/
def catOutcome (fs : FileSystem) (args : List UInt8) (index : Nat) : Outcome :=
  if args = [] then ⟨chars "could not read arguments\n", 3, 2, 1024⟩
  else
    match fs.lookup args with
    | none => ⟨chars "file not found\n", 2, 3, 1024⟩
    | some d => ⟨(contents fs d 1024 index).flatten, 0, 2 * (contents fs d 1024 index).length + 3, 1024⟩

/-- What `ls` does. -/
def lsOutcome (fs : FileSystem) (index : Nat) : Outcome :=
  match fs.lookup dot with
  | none => ⟨chars "directory open failed\n", 2, 2, 32⟩
  | some d =>
    ⟨(contents fs d 32 index).flatMap fun c => c ++ [chNewline], 0, 2 * (contents fs d 32 index).length + 2, 32⟩

/-- Alone, `P` has the outcome `o`, and ends in `exit`. -/
def Attains {σ : Type} (fs : FileSystem) (P : Program σ Call Answer) (w : View) (s : σ) (o : Outcome) (exit : σ) :
    Prop :=
  ∃ calls w', Makes (View.call fs) P (w, s) calls (w', exit) ∧
    (calls.flatMap Call.output = o.text ∧ calls.length = o.calls) ∧ ∀ c ∈ calls, c.room ≤ o.room

theorem output_fdputs {s : List UInt8} (h : 0 ∉ s) : (fdputs 1 s).output = s := by
  unfold fdputs Call.output strlen
  rw [cstr_eq_self h]
  by_cases hs : s = []
  · subst hs
    rfl
  · have hpos := List.length_pos_of_ne_nil hs
    refine (if_pos ⟨rfl, by omega⟩).trans (List.ext_getElem (by simp [bytesAt]) fun i hi hi' => ?_)
    simp [bytesAt, ofList, hi']

/-- A message, and the exit. -/
theorem Copier.puts (p : Copier) (w : View) {s : List UInt8} (h : 0 ∉ s) (status : Int) (room : Nat) :
    Attains fs p.program w (.puts s status) ⟨s, status, 1, room⟩ (.exit status) := by
  refine ⟨[fdputs 1 s], _, .single rfl rfl, ⟨?_, rfl⟩, fun c hc => ?_⟩
  · rw [List.flatMap_singleton, output_fdputs h]
  · rw [List.mem_singleton.mp hc]
    exact Nat.zero_le _

theorem Copier.copies (p : Copier) {fd : Int} {chunks : List (List UInt8)} (h : Feeds fs fd p.size w chunks w')
    (buf : Nat → UInt8) :
    Attains fs p.program w (.read fd buf)
      ⟨chunks.flatMap p.line, 0, 2 * chunks.length + 1, max (p.size % 2 ^ 32).toNat filenameLen⟩ (.exit 0) := by
  obtain ⟨calls, w₁, hcalls, hout, hroom⟩ := Feeds.copied p h w.screen buf
  exact ⟨calls, w₁, hcalls, hout, hroom⟩

/-- A call that puts out nothing, before the rest. -/
theorem Attains.call {σ : Type} {P : Program σ Call Answer} {w w₁ : View} {s exit : σ} {c : Call} {b : Answer}
    {text : List UInt8} {status : Int} {n room : Nat} (hc : P.call s = some c) (hs : w.call fs c = some (w₁, b))
    (hout : c.output = []) (hroom : c.room ≤ room)
    (h : Attains fs P w₁ (P.after s b) ⟨text, status, n, room⟩ exit) :
    Attains fs P w s ⟨text, status, n + 1, room⟩ exit := by
  obtain ⟨calls, w', hcalls, ⟨htext, hlen⟩, hrest⟩ := h
  refine ⟨c :: calls, w', .call hc hs hcalls, ⟨?_, congrArg (· + 1) hlen⟩, ?_⟩
  · rw [List.flatMap_cons, hout, List.nil_append]
    exact htext
  · intro c' hc'
    rcases List.mem_cons.mp hc' with rfl | hc'
    · exact hroom
    · exact hrest c' hc'

theorem Attains.map {σ υ : Type} {P : Program σ Call Answer} {Q : Program υ Call Answer} {s exit : σ} {o : Outcome}
    (f : σ → υ) (hcall : ∀ s, Q.call (f s) = P.call s) (hafter : ∀ s b, Q.after (f s) b = f (P.after s b))
    (h : Attains fs P w s o exit) : Attains fs Q w (f s) o (f exit) := by
  obtain ⟨calls, w', hcalls, hrest⟩ := h
  exact ⟨calls, w', hcalls.map f hcall hafter, hrest⟩

section Alone
variable (hwf : WellFormed fs) (hknown : KnownTypes fs) (args : List UInt8) (screen : LoneScreen) {index : Option Nat}
include hwf hknown

omit hwf hknown in
theorem View.open_missing {name : List UInt8} (h : fs.lookup name = none) :
    (View.initial args screen index).call fs (.open name) = some (View.initial args screen index, -1, []) := by
  unfold View.call View.open
  dsimp only
  rw [h]

omit hwf hknown in
theorem View.open_found {name : List UInt8} {d : Dentry} (h : fs.lookup name = some d) :
    (View.initial args screen index).call fs (.open name) =
      some ((View.initial args screen index).setFile 2 (some ⟨d, 0⟩), 2, []) := by
  have hfree : (View.initial args screen index).free = some 2 := rfl
  unfold View.call View.open
  dsimp only
  rw [h, hfree]

/-- What the loop of a program does with the entry that it has opened. -/
theorem Copier.opened (p : Copier) {name : List UInt8} {d : Dentry} (hd : fs.lookup name = some d)
    (hdir : d.filetype = 1 → index.isSome) {size q : Nat} (hp : p.size = size) (h4 : size % 4 = 0) (hpos : 0 < size)
    (hq : size * q = 1022 * blockSize) (buf : Nat → UInt8) :
    Attains fs p.program ((View.initial args screen index).setFile 2 (some ⟨d, 0⟩)) (.read 2 buf)
      ⟨(contents fs d size (index.getD 0)).flatMap p.line, 0, 2 * (contents fs d size (index.getD 0)).length + 1,
        max (p.size % 2 ^ 32).toNat filenameLen⟩ (.exit 0) := by
  obtain ⟨hmem, heff, hne⟩ := lookup_eq_some hd
  have hindex : d.filetype = 1 → index = some (index.getD 0) := by
    intro ht
    obtain ⟨i, rfl⟩ := Option.isSome_iff_exists.mp (hdir ht)
    rfl
  have hfd : (2 : Int) ≤ 2 ∧ (2 : Int) ≤ 7 := by decide
  obtain ⟨w', hfeeds⟩ := feeds_contents hwf hmem (heff ▸ hne) (hknown.lookup_le name hd) hfd
    (View.file_setFile hfd (View.initial args screen index) (some ⟨d, 0⟩)) hindex h4 hpos hq
  rw [← hp] at hfeeds
  exact p.copies hfeeds buf

/-- **`cat` alone.** -/
theorem cat_alone (hnul : 0 ∉ args) (hlen : args.length ≤ 127)
    (hdir : ∀ d, fs.lookup args = some d → d.filetype = 1 → index.isSome) (buf : Nat → UInt8) :
    Attains fs cat (.initial args screen index) (.getargs buf) (catOutcome fs args (index.getD 0))
      (.copying (.exit (catOutcome fs args (index.getD 0)).status)) := by
  have hmap : ∀ {w s o exit}, Attains fs catLoop.program w s o exit →
      Attains fs cat w (.copying s) o (.copying exit) :=
    fun h => h.map Cat.copying (fun _ => rfl) fun _ _ => rfl
  unfold catOutcome
  by_cases hargs : args = []
  · rw [if_pos hargs]
    have hcall : (View.initial args screen index).call fs (.getargs 1024) = some (.initial args screen index, -1, []) :=
      congrArg (fun b => some (View.initial args screen index, b)) (if_pos (Or.inl hargs))
    have hlast : Attains fs catLoop.program (.initial args screen index)
        (.puts (chars "could not read arguments\n") 3) ⟨chars "could not read arguments\n", 3, 1, 1024⟩
        (.exit 3) := catLoop.puts _ (by decide) 3 1024
    exact Attains.call rfl hcall rfl (by decide) (hmap hlast)
  · rw [if_neg hargs]
    -- the arguments are in the buffer, with NULs behind
    have hanswer : (View.initial args screen index).getargs 1024 = (0, bytesAt (ofList args) 1024) := by
      unfold View.getargs View.initial
      dsimp only
      rw [if_neg (by tauto), List.take_of_length_le (by omega)]
      rfl
    have hbytes : (bytesAt (ofList args) 1024).length = 1024 := by simp [bytesAt]
    have hname : cstr (bytesAt (storeAll buf 0 (bytesAt (ofList args) 1024)) 1024) = args := by
      have hstored := bytesAt_storeAll buf (bytesAt (ofList args) 1024)
      rw [hbytes] at hstored
      rw [hstored, cstr_bytesAt_ofList, cstr_eq_self hnul, List.take_of_length_le (by omega)]
    have hcall : (View.initial args screen index).call fs (.getargs 1024) =
        some (.initial args screen index, 0, bytesAt (ofList args) 1024) := by
      rw [← hanswer]
      rfl
    have hopen : cat.call (.open (storeAll buf 0 (bytesAt (ofList args) 1024))) = some (.open args) :=
      congrArg (fun name => some (Call.open name)) hname
    cases hd : fs.lookup args with
    | none =>
      have hlast : Attains fs catLoop.program (.initial args screen index) (.puts (chars "file not found\n") 2)
          ⟨chars "file not found\n", 2, 1, 1024⟩ (.exit 2) := catLoop.puts _ (by decide) 2 1024
      have hrest : Attains fs cat (.initial args screen index)
          (.open (storeAll buf 0 (bytesAt (ofList args) 1024))) ⟨chars "file not found\n", 2, 2, 1024⟩
          (.copying (.exit 2)) :=
        Attains.call hopen (View.open_missing args screen hd) rfl (Nat.zero_le _) (hmap hlast)
      exact Attains.call rfl hcall rfl (by decide) hrest
    | some d =>
      have hsize : catLoop.size = (1024 : Nat) := rfl
      have hloop := catLoop.opened hwf hknown args screen hd (hdir d hd) hsize (by decide) (by decide)
        (show 1024 * 4088 = 1022 * blockSize by decide) (storeAll buf 0 (bytesAt (ofList args) 1024))
      have hflat : (contents fs d 1024 (index.getD 0)).flatMap catLoop.line =
          (contents fs d 1024 (index.getD 0)).flatten := List.flatMap_id'
      rw [hflat] at hloop
      refine Attains.call rfl hcall rfl (by decide) ?_
      exact Attains.call hopen (View.open_found args screen hd) rfl (Nat.zero_le _) (hmap hloop)

/-- **`ls` alone.** -/
theorem ls_alone (hdir : ∀ d, fs.lookup dot = some d → d.filetype = 1 → index.isSome) (buf : Nat → UInt8) :
    Attains fs ls (.initial args screen index) (.open buf) (lsOutcome fs (index.getD 0))
      (.copying (.exit (lsOutcome fs (index.getD 0)).status)) := by
  have hmap : ∀ {w s o exit}, Attains fs lsLoop.program w s o exit →
      Attains fs ls w (.copying s) o (.copying exit) :=
    fun h => h.map Ls.copying (fun _ => rfl) fun _ _ => rfl
  unfold lsOutcome
  cases hd : fs.lookup dot with
  | none =>
    have hlast : Attains fs lsLoop.program (.initial args screen index) (.puts (chars "directory open failed\n") 2)
        ⟨chars "directory open failed\n", 2, 1, 32⟩ (.exit 2) := lsLoop.puts _ (by decide) 2 32
    exact Attains.call rfl (View.open_missing args screen hd) rfl (by decide) (hmap hlast)
  | some d =>
    have hsize : lsLoop.size = (32 : Nat) := rfl
    have hloop := lsLoop.opened hwf hknown args screen hd (hdir d hd) hsize (by decide) (by decide)
      (show 32 * 130816 = 1022 * blockSize by decide) buf
    exact Attains.call rfl (View.open_found args screen hd) rfl (by decide) (hmap hloop)

end Alone

/-! ## In company -/

/-- How far a program has come that has the outcome `o` alone and ends in `exit`: its calls have stayed within its
buffer, its terminal shows the part of the text that they have put out, which is all of it exactly after the last call,
and its next call comes back when it has the turn. -/
structure Accomplishes {σ : Type} (l : Launch fs) (P : Program σ Call Answer) (screen : LoneScreen) (o : Outcome)
    (exit : σ) (k : Kernel) (s : σ) (calls : List Call) : Prop where
  fits : ∀ c ∈ calls, c.room ≤ o.room
  part : calls.flatMap Call.output <+: o.text
  shows : Shows k l.terminal (typed screen (calls.flatMap Call.output))
  calls_le : calls.length ≤ o.calls
  ended_iff : P.call s = none ↔ calls.length = o.calls
  ended : P.call s = none → calls.flatMap Call.output = o.text ∧ s = exit
  comes : k.currPid = l.process → ∀ c, P.call s = some c → ∃ w, ComesBack fs l.process k w c

section InCompany
variable {k : Kernel} (l : Launch fs) {screen : LoneScreen} {index : Option Nat} {calls : List Call}
  (hscreen : Shows l.caller l.terminal screen) (hindex : ∀ i, index = some i → l.caller.globalFileIndex = i)
include hscreen hindex

theorem Launch.accomplishes {σ : Type} {P : Program σ Call Answer} {s₀ s exit : σ} {o : Outcome}
    (h : Attains fs P (l.view screen index) s₀ o exit) (hexit : P.call exit = none)
    (hrun : Reach (observed act (follow P (exchange l.process))) (InCompany P l.process l.terminal index.isSome)
      (l.started, (s₀, [])) (k, (s, calls))) : Accomplishes l P screen o exit k s calls := by
  obtain ⟨all, w', hall, ⟨htext, hlen⟩, hroom⟩ := h
  have hserved : ∀ cs w s c, Makes (View.call fs) P (l.view screen index, s₀) cs (w, s) → P.call s = some c →
      (w.call fs c).isSome := fun cs w s c hcs hc => hcs.served hall hexit hc
  obtain ⟨w, hw, hruns⟩ := l.makes hscreen hindex hserved hrun
  obtain ⟨rest, hrest, -⟩ := hw.rest hall hexit
  have hend := hw.end_iff hall hexit
  have hlens : calls.length + rest.length = o.calls := by
    rw [← hlen, hrest, List.length_append]
  have hshows := hruns.sees.screen
  rw [makes_screen hw] at hshows
  refine ⟨fun c hc => hroom c ?_, ?_, hshows, by omega, ⟨fun hs => ?_, fun hs => hend.mpr ?_⟩, fun hs => ?_,
    fun hcurr c hc => ⟨w, hruns.comesBack l hcurr (hserved calls w s c hw hc)⟩⟩
  · rw [hrest]
    exact List.mem_append_left _ hc
  · rw [← htext, hrest, List.flatMap_append]
    exact List.prefix_append _ _
  · rw [(hend.mp hs).1, hlen]
  · -- nothing remains
    obtain rfl : rest = [] := List.eq_nil_of_length_eq_zero (by omega)
    obtain ⟨es, hes, hlast⟩ := hw.rest hall hexit
    rw [List.append_nil] at hrest
    obtain rfl : es = [] := List.append_cancel_left (hes.symm.trans (hrest.trans (List.append_nil calls).symm))
    exact ⟨hrest.symm, by cases hlast; rfl⟩
  · obtain ⟨rfl, he⟩ := hend.mp hs
    exact ⟨htext, congrArg Prod.snd he⟩

omit hscreen hindex in
theorem copyWord_length {command : Nat → UInt8} {stop : UInt8 → Bool} : ∀ {room idx : Nat} {p : List UInt8 × Nat},
    copyWord command stop room idx = some p → p.1.length ≤ room
  | 0, idx, p, h => by
    rw [copyWord] at h
    split_ifs at h
    cases h
    exact Nat.le_refl 0
  | room + 1, idx, p, h => by
    rw [copyWord] at h
    split_ifs at h
    · cases h
      exact Nat.zero_le _
    · obtain ⟨q, hq, rfl⟩ := Option.map_eq_some_iff.mp h
      exact Nat.succ_le_succ (copyWord_length hq)

omit hscreen hindex in
/-- The arguments of a program are at most 127 bytes. -/
theorem Launch.args_length (l : Launch fs) : l.args.length ≤ maxArgsLength := by
  have h := l.parses
  simp only [parseCommand, Option.bind_eq_bind, Option.bind_eq_some_iff] at h
  obtain ⟨_, -, _, -, _, -, p, hp, h⟩ := h
  have hargs : p.1 = l.args := congrArg Prod.snd (Option.some.inj h)
  rw [← hargs]
  exact copyWord_length hp

end InCompany

/-! ## Two runs -/

/-- An image with the entries `.` and `shell`. -/
def listedImage : FileSystem :=
  { mem := fun a => ((dirBytes ++ [(8192, 28), (12288, 0x7F), (12289, 69), (12290, 76), (12291, 70), (12313, 0x80),
      (12314, 0x04), (12315, 0x08)]).lookup a).getD 0
    theBootBlock := 4096, filesystemStart := 4096, fsStartAddr := 4096 }

theorem listedImage_wellFormed : WellFormed listedImage where
  loaded := by decide
  accepted := by
    refine ⟨16384, ?_⟩
    unfold initFileSystem
    rw [if_neg (by decide +kernel)]
    rfl
  inode_lt := by decide +kernel
  block_lt := by
    have hcount : listedImage.inodeCount = 1 := by decide +kernel
    have hlength : listedImage.inodeLength 0 = 28 := by decide +kernel
    intro i hi n hn
    rw [hcount] at hi
    obtain rfl : i = 0 := by omega
    rw [hlength, blockSize] at hn
    obtain rfl : n = 0 := by omega
    decide +kernel
  length_le := by decide +kernel

theorem bootable_listedImage : Bootable listedImage where
  hasShell := ⟨listedImage.direntry 1, by decide +kernel, by decide +kernel, by decide +kernel⟩
  wellFormed := listedImage_wellFormed
  fits := by decide +kernel

/-- A program that attains its outcome does so in a run. -/
theorem Attains.exists_run {σ : Type} {P : Program σ Call Answer} (l : Launch fs) {screen : LoneScreen}
    {index : Option Nat} (hscreen : Shows l.caller l.terminal screen)
    (hindex : ∀ i, index = some i → l.caller.globalFileIndex = i) {s₀ exit : σ} {o : Outcome}
    (h : Attains fs P (l.view screen index) s₀ o exit) (hroom : usrBuf + o.room ≤ one32Mb) {esp : Int}
    (hstack : stackOwner esp = l.process) :
    ∃ k calls, Reach (observed act (follow P (exchange l.process))) (InCompany P l.process l.terminal index.isSome)
      (l.started, (s₀, [])) (k, (exit, calls)) := by
  obtain ⟨calls, w', hall, -, hfits⟩ := h
  obtain ⟨k, hrun⟩ := l.exists_run hscreen hindex hall hstack fun c hc => by
    have := hfits c hc
    omega
  exact ⟨k, calls, hrun⟩

end BasicOs
