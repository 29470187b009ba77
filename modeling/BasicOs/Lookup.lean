import BasicOs.ImageBounds

/-!
# Looking up names

Three functions search the directory. `read_dentry_by_name` goes through its 63 slots and compares lengths before
names, with `strlen` running past the end of a name that fills its slot; `read_dentry_by_index` goes by the count in
the boot block; `file_open` compares 32 bytes at the addresses of the slots.

* `readDentryByNameInto` : `read_dentry_by_name` with the entry it fills in, as the source has it;
* `lookup_eq_some_iff` : the slot that a lookup by name finds, the first of that name;
* `lookupsAgree_iff` : when names and indices reach the same entries.
-/

namespace BasicOs
open Bytes

namespace FileSystem

/-! ## By name -/

/-- The address of slot `i`, where its name starts. -/
def slotAddr (fs : FileSystem) (i : Nat) : Nat := fs.theBootBlock + 64 + 64 * i

/-- The bytes from the start of slot `i` on. -/
def slotView (fs : FileSystem) (i : Nat) : Nat → UInt8 := fun j => fs.mem (u32 (fs.slotAddr i + j))

/-- `strlen(potential_dentry->filename)`: over all of memory, as nothing ends a name of 32 bytes. -/
def slotStrlen (fs : FileSystem) (i : Nat) : Nat := strnlen (fs.slotView i) (2 ^ 32)

/-- `fname_len`. -/
def slotNameLen (fs : FileSystem) (i : Nat) : Nat :=
  if fs.slotStrlen i > filenameLen then filenameLen else fs.slotStrlen i

/-- The loop of `read_dentry_by_name` over the slots from `i` on, `left` of them to go. -/
def scanByName (fs : FileSystem) (fname : List UInt8) (dentry : Dentry) : (left i : Nat) → Dentry × Int
  | 0, _ => (dentry, -1)
  | left + 1, i =>
    if strlen fname ≠ fs.slotNameLen i then scanByName fs fname dentry left (i + 1)
    else if strncmp (ofList fname) (fs.slotView i) (fs.slotNameLen i) = 0 then (fs.direntry i, 0)
    else scanByName fs fname dentry left (i + 1)

/-- `read_dentry_by_name`: what `*dentry` is afterwards, and the value returned. -/
def readDentryByNameInto (fs : FileSystem) (fname : List UInt8) (dentry : Dentry) : Dentry × Int :=
  if fs.theBootBlock = 0 then (dentry, -1)
  else if strlen fname = 0 then (dentry, -1)
  else scanByName fs fname dentry numDirentries 0

theorem filename_eq (fs : FileSystem) (i : Nat) :
    (fs.direntry i).filename = bytesAt (fs.slotView i) filenameLen := rfl

/-- The clamped length is that of the name. -/
theorem slotNameLen_eq (fs : FileSystem) (i : Nat) :
    fs.slotNameLen i = strnlen (ofList (fs.direntry i).filename) filenameLen := by
  have hclamp : fs.slotNameLen i = min (fs.slotStrlen i) filenameLen := by
    unfold slotNameLen
    split_ifs <;> omega
  rw [hclamp, slotStrlen, min_strnlen (by decide)]
  apply strnlen_congr
  intro j hj
  rw [filename_eq, ofList_bytesAt _ hj]

/-- The two tests of the loop are the test of `readDentryByName`. -/
theorem nameMatches_slot_iff (fs : FileSystem) (fname : List UInt8) (i : Nat) :
    nameMatches fname (fs.direntry i) = true ↔
      strlen fname = fs.slotNameLen i ∧ strncmp (ofList fname) (fs.slotView i) (fs.slotNameLen i) = 0 := by
  have hle : fs.slotNameLen i ≤ filenameLen := by
    unfold slotNameLen
    split_ifs <;> omega
  have hbytes : bytesAt (fs.slotView i) (fs.slotNameLen i) =
      bytesAt (ofList (fs.direntry i).filename) (fs.slotNameLen i) := by
    apply bytesAt_congr
    intro j hj
    rw [filename_eq, ofList_bytesAt _ (by omega)]
  simp only [nameMatches, ← slotNameLen_eq, Bool.and_eq_true, beq_iff_eq, strncmp_eq_zero_iff, hbytes]

theorem scanByName_eq (fs : FileSystem) (fname : List UInt8) (dentry : Dentry) (left : Nat) : ∀ i,
    scanByName fs fname dentry left i =
      match ((List.range' i left).map fs.direntry).find? (nameMatches fname) with
      | some d => (d, 0)
      | none => (dentry, -1) := by
  induction left with
  | zero =>
    intro i
    rfl
  | succ left ih =>
    intro i
    rw [List.range'_succ, List.map_cons, scanByName, ih]
    by_cases hmatch : nameMatches fname (fs.direntry i) = true
    · obtain ⟨hlen, hcmp⟩ := (nameMatches_slot_iff fs fname i).mp hmatch
      rw [List.find?_cons_of_pos hmatch, if_neg (not_not.mpr hlen), if_pos hcmp]
    · rw [List.find?_cons_of_neg hmatch]
      rw [nameMatches_slot_iff] at hmatch
      split_ifs with hlen hcmp
      · rfl
      · exact absurd ⟨not_not.mp hlen, hcmp⟩ hmatch
      · rfl

/-- The entry is filled in when there is one. -/
theorem readDentryByNameInto_eq (fs : FileSystem) (fname : List UInt8) (dentry : Dentry) :
    fs.readDentryByNameInto fname dentry =
      match fs.readDentryByName fname with
      | some d => (d, 0)
      | none => (dentry, -1) := by
  unfold readDentryByNameInto readDentryByName
  split_ifs
  · rfl
  · rfl
  · rw [scanByName_eq, List.range_eq_range']

/-- A lookup finds the first slot that has the name. -/
theorem lookup_eq_some_iff {fs : FileSystem} (hboot : fs.theBootBlock ≠ 0) {fname : List UInt8}
    (hne : cstr fname ≠ []) (d : Dentry) :
    fs.lookup fname = some d ↔ ∃ i < numDirentries, fs.direntry i = d ∧ effectiveName d = cstr fname ∧
      ∀ j < i, effectiveName (fs.direntry j) ≠ cstr fname := by
  rw [lookup, if_neg (by simp [hboot, hne]), slots, List.find?_map, Option.map_eq_some_iff]
  simp only [List.find?_range_eq_some, List.mem_range, Function.comp_apply, decide_eq_true_eq, Bool.not_eq_true',
    decide_eq_false_iff_not]
  constructor
  · rintro ⟨i, ⟨hname, hi, hfirst⟩, rfl⟩
    exact ⟨i, hi, rfl, hname, hfirst⟩
  · rintro ⟨i, hi, rfl, hname, hfirst⟩
    exact ⟨i, ⟨hname, hi, hfirst⟩, rfl⟩

theorem lookup_eq_none_iff_slots {fs : FileSystem} (hboot : fs.theBootBlock ≠ 0) {fname : List UInt8}
    (hne : cstr fname ≠ []) :
    fs.lookup fname = none ↔ ∀ i < numDirentries, effectiveName (fs.direntry i) ≠ cstr fname := by
  rw [lookup, if_neg (by simp [hboot, hne]), slots]
  simp

/-- A slot without a NUL has all its 32 bytes for a name. -/
theorem effectiveName_of_full {d : Dentry} (h : 0 ∉ d.filename) : effectiveName d = d.filename := cstr_eq_self h

theorem effectiveName_length_le (fs : FileSystem) (i : Nat) : (effectiveName (fs.direntry i)).length ≤ filenameLen :=
  (cstr_length_le _).trans (fs.filename_length i).le

/-- A lookup succeeds exactly if the name is not empty and some slot has it. -/
theorem readDentryByNameInto_eq_zero_iff {fs : FileSystem} (hboot : fs.theBootBlock ≠ 0) (fname : List UInt8)
    (dentry : Dentry) : (fs.readDentryByNameInto fname dentry).2 = 0 ↔
      cstr fname ≠ [] ∧ ∃ i < numDirentries, effectiveName (fs.direntry i) = cstr fname := by
  rw [readDentryByNameInto_eq, readDentryByName_eq]
  by_cases hne : cstr fname = []
  · rw [lookup, if_pos (Or.inr hne)]
    simp [hne]
  · cases hlookup : fs.lookup fname with
    | none =>
      constructor
      · intro h
        cases h
      · rintro ⟨-, i, hi, hname⟩
        exact absurd hname ((lookup_eq_none_iff_slots hboot hne).mp hlookup i hi)
    | some d =>
      obtain ⟨i, hi, rfl, hname, -⟩ := (lookup_eq_some_iff hboot hne d).mp hlookup
      exact ⟨fun _ => ⟨hne, i, hi, hname⟩, fun _ => rfl⟩

/-- One that fails changes nothing. -/
theorem readDentryByNameInto_of_ne_zero {fs : FileSystem} {fname : List UInt8} {dentry : Dentry}
    (h : (fs.readDentryByNameInto fname dentry).2 ≠ 0) : fs.readDentryByNameInto fname dentry = (dentry, -1) := by
  rw [readDentryByNameInto_eq] at h ⊢
  cases hread : fs.readDentryByName fname with
  | none => rfl
  | some d =>
    rw [hread] at h
    exact absurd rfl h

end FileSystem

open FileSystem

/-- **Lookup by name.** `read_dentry_by_name` finds a name that is not empty exactly if one of the 63 slots has it,
and then fills in the first of these; otherwise it changes nothing. So names of more than 32 bytes are never found,
and names that fill their slot are. -/
theorem readDentryByName_exact {fs : FileSystem} (hboot : fs.theBootBlock ≠ 0) (fname : List UInt8) (dentry : Dentry) :
    ((fs.readDentryByNameInto fname dentry).2 = 0 ↔
      cstr fname ≠ [] ∧ ∃ i < numDirentries, effectiveName (fs.direntry i) = cstr fname) ∧
    (∀ i < numDirentries, cstr fname ≠ [] → effectiveName (fs.direntry i) = cstr fname →
      (∀ j < i, effectiveName (fs.direntry j) ≠ cstr fname) →
      fs.readDentryByNameInto fname dentry = (fs.direntry i, 0)) ∧
    ((fs.readDentryByNameInto fname dentry).2 ≠ 0 → fs.readDentryByNameInto fname dentry = (dentry, -1)) ∧
    (filenameLen < (cstr fname).length → fs.readDentryByNameInto fname dentry = (dentry, -1)) ∧
    ∀ i < numDirentries, 0 ∉ (fs.direntry i).filename → (fs.direntry i).filename = cstr fname →
      (fs.readDentryByNameInto fname dentry).2 = 0 := by
  have hiff := readDentryByNameInto_eq_zero_iff hboot fname dentry
  refine ⟨hiff, ?_, readDentryByNameInto_of_ne_zero, ?_, ?_⟩
  · intro i hi hne hname hfirst
    rw [readDentryByNameInto_eq, readDentryByName_eq,
      (lookup_eq_some_iff hboot hne _).mpr ⟨i, hi, rfl, hname, hfirst⟩]
  · intro hlong
    apply readDentryByNameInto_of_ne_zero
    intro hzero
    obtain ⟨-, i, -, hname⟩ := hiff.mp hzero
    have := fs.effectiveName_length_le i
    rw [hname] at this
    omega
  · intro i hi hfull hname
    apply hiff.mpr
    refine ⟨?_, i, hi, (effectiveName_of_full hfull).trans hname⟩
    intro hnil
    have := fs.filename_length i
    rw [hname, hnil, List.length_nil] at this
    omega

/-- `shell`, in the first slot of the small image. -/
theorem readDentryByName_exact_shell : shellImage.theBootBlock ≠ 0 ∧
    shellImage.readDentryByNameInto shellName ⟨[], 0, 0⟩ = (shellDentry, 0) := by
  refine ⟨by decide, ?_⟩
  apply (readDentryByName_exact (by decide) shellName ⟨[], 0, 0⟩).2.1 0 (by decide) (by decide) (by decide +kernel)
  intro j hj
  omega

/-! ## By index -/

/-- Names and indices reach the same entries: a name that is not empty is found exactly if some index has an entry of
that name, and every index with an entry is that of a slot. -/
structure LookupsAgree (fs : FileSystem) : Prop where
  found_iff : ∀ fname, cstr fname ≠ [] → ((∃ d, fs.readDentryByName fname = some d) ↔
    ∃ i d, fs.readDentryByIndex i = some d ∧ effectiveName d = cstr fname)
  index_lt : ∀ i d, fs.readDentryByIndex i = some d → i < numDirentries

theorem readDentryByIndex_eq_some_iff {fs : FileSystem} (hboot : fs.theBootBlock ≠ 0) (i : Nat) (d : Dentry) :
    fs.readDentryByIndex i = some d ↔ i < fs.dirEntryCount ∧ fs.direntry i = d := by
  rw [readDentryByIndex, if_neg hboot]
  split_ifs with h
  · simp [h]
  · simp [Nat.not_le.mp h]

theorem exists_readDentryByName_iff {fs : FileSystem} (hboot : fs.theBootBlock ≠ 0) {fname : List UInt8}
    (hne : cstr fname ≠ []) : (∃ d, fs.readDentryByName fname = some d) ↔
      ∃ i < numDirentries, effectiveName (fs.direntry i) = cstr fname := by
  rw [readDentryByName_eq, ← Option.isSome_iff_exists, Option.isSome_iff_ne_none, Ne,
    lookup_eq_none_iff_slots hboot hne]
  simp

/-- **By name and by index.** The lookups agree exactly if the count in the boot block is at most 63 and every slot
from the count on has no name, or the name of a slot before it. -/
theorem lookupsAgree_iff (fs : FileSystem) :
    LookupsAgree fs ↔ fs.theBootBlock = 0 ∨ (fs.dirEntryCount ≤ numDirentries ∧
      ∀ i, fs.dirEntryCount ≤ i → i < numDirentries → effectiveName (fs.direntry i) = [] ∨
        ∃ j < fs.dirEntryCount, effectiveName (fs.direntry j) = effectiveName (fs.direntry i)) := by
  by_cases hboot : fs.theBootBlock = 0
  · refine ⟨fun _ => Or.inl hboot, fun _ => ⟨?_, ?_⟩⟩
    · intro fname hne
      simp [readDentryByName, readDentryByIndex, hboot]
    · intro i d h
      simp [readDentryByIndex, hboot] at h
  · have hindex := readDentryByIndex_eq_some_iff hboot
    constructor
    · intro h
      have hcount : fs.dirEntryCount ≤ numDirentries := by
        by_contra hgt
        exact absurd (h.index_lt numDirentries _ ((hindex _ _).mpr ⟨Nat.not_le.mp hgt, rfl⟩)) (lt_irrefl _)
      refine Or.inr ⟨hcount, ?_⟩
      intro i _ hi
      by_cases hname : effectiveName (fs.direntry i) = []
      · exact Or.inl hname
      · -- the name of the slot is found by name, so an index has it
        have hcstr : cstr (effectiveName (fs.direntry i)) = effectiveName (fs.direntry i) := cstr_cstr _
        have hne : cstr (effectiveName (fs.direntry i)) ≠ [] := by rwa [hcstr]
        obtain ⟨j, d, hj, hd⟩ := (h.found_iff _ hne).mp
          ((exists_readDentryByName_iff hboot hne).mpr ⟨i, hi, hcstr.symm⟩)
        obtain ⟨hlt, rfl⟩ := (hindex j d).mp hj
        exact Or.inr ⟨j, hlt, hd.trans hcstr⟩
    · intro h
      obtain ⟨hcount, hstale⟩ := h.resolve_left hboot
      refine ⟨?_, ?_⟩
      · intro fname hne
        rw [exists_readDentryByName_iff hboot hne]
        constructor
        · rintro ⟨i, hi, hname⟩
          by_cases hlt : i < fs.dirEntryCount
          · exact ⟨i, _, (hindex _ _).mpr ⟨hlt, rfl⟩, hname⟩
          · rcases hstale i (Nat.not_lt.mp hlt) hi with hnil | ⟨j, hj, hsame⟩
            · exact absurd (hname.symm.trans hnil) hne
            · exact ⟨j, _, (hindex _ _).mpr ⟨hj, rfl⟩, hsame.trans hname⟩
        · rintro ⟨i, d, hi, hname⟩
          obtain ⟨hlt, rfl⟩ := (hindex i d).mp hi
          exact ⟨i, by omega, hname⟩
      · intro i d hi
        have := ((hindex i d).mp hi).1
        omega

/-- The small image with a count of 0: `shell` is still in the first slot. -/
def unlistedImage : FileSystem := { shellImage with mem := Function.update shellImage.mem 4096 0 }

/-- It is accepted; `shell` is found by name and by no index. -/
theorem lookups_disagree : unlistedImage.initFileSystem 4096 16384 = (unlistedImage, 0) ∧
    (∃ d, unlistedImage.readDentryByName shellName = some d) ∧ (∀ i, unlistedImage.readDentryByIndex i = none) ∧
    ¬ LookupsAgree unlistedImage := by
  have hfound : ∃ d, unlistedImage.readDentryByName shellName = some d :=
    ⟨unlistedImage.direntry 0, by decide +kernel⟩
  have hcount : unlistedImage.dirEntryCount = 0 := by decide +kernel
  have hindex : ∀ i, unlistedImage.readDentryByIndex i = none := by
    intro i
    rw [readDentryByIndex, if_neg (by decide), if_pos (by omega)]
  refine ⟨?_, hfound, hindex, ?_⟩
  · rw [initFileSystem_eq, if_neg (by decide +kernel)]
    rfl
  · intro h
    obtain ⟨i, d, hi, -⟩ := (h.found_iff shellName (by decide)).mp hfound
    rw [hindex] at hi
    cases hi

/-! ## Opening what was found -/

/-- **The two scans of `sys_open`.** A name that `read_dentry_by_name` finds is found by `file_open`, which records
the inode of the same entry; so a call of `sys_open` for a regular file that has a free descriptor succeeds, and the
descriptor is open on the inode of that entry. -/
theorem fileOpen_agrees {fs : FileSystem} {fname : List UInt8} {d : Dentry}
    (hfound : fs.readDentryByName fname = some d) :
    fs.fileOpen fname = some d.inodeNum ∧
      ∀ (k : Kernel) (esp fd : Int) (rate : UInt8), k.fs = fs → d.filetype = 2 →
        freeFd (k.pcbs (stackOwner esp)) = some fd →
        ∃ k', sysOpen k esp fname rate = some (k', fd) ∧ k'.globalInodeIndex = d.inodeNum ∧
          (k'.pcbs (stackOwner esp)).fda fd =
            { fopsPtr := .filesysTable, inode := d.inodeNum, filePosition := 0, flags := inUse } := by
  have hopen : fs.fileOpen fname = some d.inodeNum := by
    rw [readDentryByName_eq] at hfound
    exact fileOpen_of_lookup hfound
  refine ⟨hopen, ?_⟩
  rintro k esp fd rate rfl htype hfree
  have hfops : fopsOf d.filetype = some .filesysTable := by
    rw [htype]
    rfl
  unfold sysOpen
  simp only [hfound, hfree, hfops, Option.map_some, Fops.open, hopen]
  refine ⟨_, rfl, rfl, ?_⟩
  rw [Kernel.modifyPcb_pcbs_self]
  exact Function.update_self ..

/-- `shell`, opened by a process of the small image. -/
theorem fileOpen_agrees_shell : shellImage.readDentryByName shellName = some shellDentry ∧
    shellDentry.filetype = 2 ∧ freeFd (shellProcess.pcbs (stackOwner shellProcessEsp)) = some 2 ∧
    shellImage.fileOpen shellName = some shellDentry.inodeNum ∧
    ∃ k', sysOpen shellProcess shellProcessEsp shellName 0 = some (k', 2) ∧
      k'.globalInodeIndex = shellDentry.inodeNum := by
  have hfound : shellImage.readDentryByName shellName = some shellDentry := by decide +kernel
  have hfree : freeFd (shellProcess.pcbs (stackOwner shellProcessEsp)) = some 2 := by decide +kernel
  obtain ⟨hopen, hsys⟩ := fileOpen_agrees hfound
  obtain ⟨k', hk', hindex, -⟩ := hsys shellProcess shellProcessEsp 2 0 rfl shellDentry_filetype hfree
  exact ⟨hfound, shellDentry_filetype, hfree, hopen, k', hk', hindex⟩

end BasicOs
